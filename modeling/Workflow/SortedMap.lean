/-!
# Sorted maps

Finite maps kept as the list of their entries in strictly increasing key order. The order is part of
the type, so two maps with the same entries are equal (`SortedMap.ext_get?`), and a map is written
out in one way only.
-/

set_option autoImplicit false

namespace Workflow

/-- A finite map from `κ` to `ν`, as its entries in strictly increasing order of their keys. -/
structure SortedMap (κ ν : Type) [Ord κ] where
  entries : List (κ × ν)
  /-- Keys increase strictly, so no key occurs twice. -/
  sorted : entries.Pairwise (fun a b => compare a.1 b.1 = .lt)

namespace SortedMap

variable {κ ν : Type} [Ord κ]

theorem ext {m n : SortedMap κ ν} (h : m.entries = n.entries) : m = n := by
  cases m; cases n; cases h; rfl

instance [DecidableEq κ] [DecidableEq ν] : DecidableEq (SortedMap κ ν) := fun m n =>
  if h : m.entries = n.entries then isTrue (ext h) else isFalse fun e => h (e ▸ rfl)

def empty : SortedMap κ ν := ⟨[], .nil⟩

instance : EmptyCollection (SortedMap κ ν) := ⟨empty⟩

instance : Inhabited (SortedMap κ ν) := ⟨∅⟩

def isEmpty (m : SortedMap κ ν) : Bool := m.entries.isEmpty

def size (m : SortedMap κ ν) : Nat := m.entries.length

def keys (m : SortedMap κ ν) : List κ := m.entries.map Prod.fst

/-- The values, in the order of their keys. -/
def values (m : SortedMap κ ν) : List ν := m.entries.map Prod.snd

/-- The value that a list of entries gives a key. -/
def find (k : κ) : List (κ × ν) → Option ν
  | [] => none
  | (k', v) :: rest => if compare k k' = .eq then some v else find k rest

def get? (m : SortedMap κ ν) (k : κ) : Option ν := find k m.entries

def contains (m : SortedMap κ ν) (k : κ) : Bool := (m.get? k).isSome

/-- Puts an entry in its place and drops an earlier one of the same key. -/
def place (k : κ) (v : ν) : List (κ × ν) → List (κ × ν)
  | [] => [(k, v)]
  | (k', v') :: rest =>
    match compare k k' with
    | .lt => (k, v) :: (k', v') :: rest
    | .eq => (k, v) :: rest
    | .gt => (k', v') :: place k v rest

def erase (m : SortedMap κ ν) (k : κ) : SortedMap κ ν :=
  ⟨m.entries.filter (fun e => compare k e.1 ≠ .eq), m.sorted.filter _⟩

def filter (m : SortedMap κ ν) (keep : κ → ν → Bool) : SortedMap κ ν :=
  ⟨m.entries.filter (fun e => keep e.1 e.2), m.sorted.filter _⟩

theorem mem_place {k : κ} {v : ν} {l : List (κ × ν)} {a : κ × ν} (h : a ∈ place k v l) :
    a = (k, v) ∨ a ∈ l := by
  induction l with
  | nil => simpa [place] using h
  | cons b l ih =>
    unfold place at h
    split at h
    · simpa using h
    · rcases List.mem_cons.1 h with h | h
      · exact .inl h
      · exact .inr (List.mem_cons_of_mem _ h)
    · rcases List.mem_cons.1 h with h | h
      · exact .inr (h ▸ List.mem_cons_self)
      · exact (ih h).imp_right (List.mem_cons_of_mem _)

theorem length_place_le (k : κ) (v : ν) (l : List (κ × ν)) :
    (place k v l).length ≤ l.length + 1 := by
  induction l with
  | nil => exact Nat.le_refl 1
  | cons e rest ih =>
    unfold place
    split
    · exact Nat.le_refl _
    · exact Nat.le_succ _
    · exact Nat.succ_le_succ ih

theorem size_erase_le (m : SortedMap κ ν) (k : κ) : (m.erase k).size ≤ m.size :=
  List.length_filter_le ..

theorem size_filter_le (m : SortedMap κ ν) (keep : κ → ν → Bool) :
    (m.filter keep).size ≤ m.size :=
  List.length_filter_le ..

theorem get?_empty (k : κ) : (∅ : SortedMap κ ν).get? k = none := rfl

variable [Std.LawfulEqOrd κ]

theorem find_place_self (k : κ) (v : ν) (l : List (κ × ν)) : find k (place k v l) = some v := by
  induction l with
  | nil => simp [place, find]
  | cons b l ih =>
    unfold place
    split
    · simp [find]
    · simp [find]
    next hgt => simp [find, hgt, ih]

theorem find_place_ne {k k' : κ} (v : ν) (l : List (κ × ν)) (h : k' ≠ k) :
    find k' (place k v l) = find k' l := by
  have hne : compare k' k ≠ .eq := fun e => h (Std.LawfulEqCmp.eq_of_compare e)
  induction l with
  | nil => simp [place, find, hne]
  | cons b l ih =>
    unfold place
    split
    · simp [find, hne]
    next heq =>
      have : k = b.1 := Std.LawfulEqCmp.eq_of_compare heq
      simp [find, ← this, hne]
    · simp only [find, ih]

theorem find_filter_erase (k k' : κ) (l : List (κ × ν)) :
    find k' (l.filter (fun e => compare k e.1 ≠ .eq)) =
      if compare k k' = .eq then none else find k' l := by
  induction l with
  | nil => simp [find]
  | cons b l ih =>
    by_cases hb : compare k b.1 = .eq
    · have hk : k = b.1 := Std.LawfulEqCmp.eq_of_compare hb
      rw [List.filter_cons_of_neg (by simp [hb]), ih]
      by_cases hc : compare k k' = .eq
      · simp [hc]
      · have : compare k' b.1 ≠ .eq := fun e => hc (by
          rw [← hk] at e; rw [Std.LawfulEqCmp.eq_of_compare e]; exact Std.ReflCmp.compare_self)
        simp [find, hc, this]
    · rw [List.filter_cons_of_pos (by simp [hb])]
      by_cases hc : compare k k' = .eq
      · have hk : k = k' := Std.LawfulEqCmp.eq_of_compare hc
        have : compare k' b.1 ≠ .eq := hk ▸ hb
        simpa [find, this, hc] using ih
      · simp only [find, ih, hc, if_false]

theorem find_eq_some_iff {k : κ} {v : ν} {l : List (κ × ν)}
    (h : l.Pairwise (fun a b => compare a.1 b.1 = .lt)) : find k l = some v ↔ (k, v) ∈ l := by
  induction l with
  | nil => simp [find]
  | cons b l ih =>
    have hb := List.pairwise_cons.1 h
    obtain ⟨k', v'⟩ := b
    unfold find
    split
    next heq =>
      have hk : k = k' := Std.LawfulEqCmp.eq_of_compare heq
      subst hk
      simp only [Option.some.injEq, List.mem_cons, Prod.mk.injEq, true_and]
      refine ⟨fun e => .inl e.symm, fun e => e.elim Eq.symm fun hm => ?_⟩
      have := hb.1 _ hm
      simp at this
    next hne =>
      rw [ih hb.2, List.mem_cons]
      refine ⟨.inr, fun e => e.elim (fun e => ?_) id⟩
      rw [(Prod.mk.inj e).1] at hne
      exact absurd Std.ReflCmp.compare_self hne

/-- A key has a value exactly if that pair is an entry. -/
theorem get?_eq_some_iff (m : SortedMap κ ν) {k : κ} {v : ν} :
    m.get? k = some v ↔ (k, v) ∈ m.entries :=
  find_eq_some_iff m.sorted

theorem get?_filter_eq_some_iff (m : SortedMap κ ν) {keep : κ → ν → Bool} {k : κ} {v : ν} :
    (m.filter keep).get? k = some v ↔ m.get? k = some v ∧ keep k v = true := by
  rw [get?_eq_some_iff, get?_eq_some_iff]
  exact List.mem_filter

theorem mem_values_iff (m : SortedMap κ ν) {v : ν} : v ∈ m.values ↔ ∃ k, m.get? k = some v := by
  simp only [values, List.mem_map, get?_eq_some_iff]
  constructor
  · rintro ⟨⟨k, v⟩, hmem, rfl⟩
    exact ⟨k, hmem⟩
  · rintro ⟨k, hmem⟩
    exact ⟨(k, v), hmem, rfl⟩

/-- No two entries have the same key. -/
theorem nodup_keys (m : SortedMap κ ν) : (m.entries.map Prod.fst).Nodup := by
  rw [List.nodup_iff_pairwise_ne, List.pairwise_map]
  refine m.sorted.imp fun hlt heq => ?_
  rw [heq] at hlt
  exact absurd hlt (by simp)

theorem get?_erase (m : SortedMap κ ν) (k k' : κ) :
    (m.erase k).get? k' = if compare k k' = .eq then none else m.get? k' :=
  find_filter_erase k k' m.entries

theorem get?_erase_self (m : SortedMap κ ν) (k : κ) : (m.erase k).get? k = none := by
  rw [get?_erase, if_pos Std.ReflCmp.compare_self]

theorem get?_erase_of_ne (m : SortedMap κ ν) {k k' : κ} (h : k' ≠ k) :
    (m.erase k).get? k' = m.get? k' := by
  rw [get?_erase, if_neg fun e => h (Std.LawfulEqCmp.eq_of_compare e).symm]

variable [Std.TransOrd κ]

theorem pairwise_place (k : κ) (v : ν) {l : List (κ × ν)}
    (h : l.Pairwise (fun a b => compare a.1 b.1 = .lt)) :
    (place k v l).Pairwise (fun a b => compare a.1 b.1 = .lt) := by
  induction l with
  | nil => simp [place]
  | cons b l ih =>
    have hb := List.pairwise_cons.1 h
    unfold place
    split
    next hlt =>
      refine List.pairwise_cons.2 ⟨fun c hc => ?_, h⟩
      rcases List.mem_cons.1 hc with rfl | hc
      · exact hlt
      · exact Std.TransCmp.lt_trans hlt (hb.1 c hc)
    next heq =>
      have : k = b.1 := Std.LawfulEqCmp.eq_of_compare heq
      exact List.pairwise_cons.2 ⟨fun c hc => this ▸ hb.1 c hc, hb.2⟩
    next hgt =>
      refine List.pairwise_cons.2 ⟨fun c hc => ?_, ih hb.2⟩
      rcases mem_place hc with rfl | hc
      · exact Std.OrientedCmp.gt_iff_lt.1 hgt
      · exact hb.1 c hc

def insert (m : SortedMap κ ν) (k : κ) (v : ν) : SortedMap κ ν :=
  ⟨place k v m.entries, pairwise_place k v m.sorted⟩

/-- The map with the key set to the value, unless it has one already. -/
def insertNew (m : SortedMap κ ν) (k : κ) (v : ν) : SortedMap κ ν :=
  if m.contains k then m else m.insert k v

theorem size_insert_le (m : SortedMap κ ν) (k : κ) (v : ν) : (m.insert k v).size ≤ m.size + 1 :=
  length_place_le k v m.entries

theorem size_insertNew_le (m : SortedMap κ ν) (k : κ) (v : ν) :
    (m.insertNew k v).size ≤ m.size + 1 := by
  unfold insertNew
  split
  · exact Nat.le_succ _
  · exact m.size_insert_le k v

/-- Inserts entries from left to right; of several for one key the last one counts. -/
def ofList (l : List (κ × ν)) : SortedMap κ ν := l.foldl (fun m e => m.insert e.1 e.2) ∅

/-! ### Look-ups -/

theorem get?_insert_self (m : SortedMap κ ν) (k : κ) (v : ν) : (m.insert k v).get? k = some v :=
  find_place_self k v m.entries

theorem get?_insert_of_ne (m : SortedMap κ ν) {k k' : κ} (v : ν) (h : k' ≠ k) :
    (m.insert k v).get? k' = m.get? k' :=
  find_place_ne v m.entries h

theorem get?_insert [DecidableEq κ] (m : SortedMap κ ν) (k k' : κ) (v : ν) :
    (m.insert k v).get? k' = if k' = k then some v else m.get? k' := by
  split
  next h => rw [h, get?_insert_self]
  next h => exact get?_insert_of_ne m v h

/-- An entry that is erased and put back. -/
theorem get?_insert_erase [DecidableEq κ] {m : SortedMap κ ν} {k : κ} {v : ν}
    (h : m.get? k = some v) (k' : κ) : ((m.erase k).insert k v).get? k' = m.get? k' := by
  rw [get?_insert]
  split
  next heq => rw [heq, h]
  next hne => exact get?_erase_of_ne m hne

theorem get?_insertNew [DecidableEq κ] (m : SortedMap κ ν) (k k' : κ) (v : ν) :
    (m.insertNew k v).get? k' = (m.get? k').or (if k' = k then some v else none) := by
  unfold insertNew contains
  cases hk : m.get? k with
  | some old =>
    rw [if_pos Option.isSome_some]
    split
    next heq => rw [heq, hk, Option.some_or]
    next => rw [Option.or_none]
  | none =>
    rw [if_neg (by simp), get?_insert]
    split
    next heq => rw [heq, hk, Option.none_or]
    next => rw [Option.or_none]

theorem eq_of_find_eq {l m : List (κ × ν)}
    (hl : l.Pairwise (fun a b => compare a.1 b.1 = .lt))
    (hm : m.Pairwise (fun a b => compare a.1 b.1 = .lt))
    (h : ∀ k, find k l = find k m) : l = m := by
  have mem : ∀ e, e ∈ l ↔ e ∈ m := fun e => by
    rw [← find_eq_some_iff hl, ← find_eq_some_iff hm, h]
  clear h
  induction l generalizing m with
  | nil =>
    cases m with
    | nil => rfl
    | cons b m => exact absurd ((mem b).2 List.mem_cons_self) List.not_mem_nil
  | cons a l ih =>
    have ha := List.pairwise_cons.1 hl
    cases m with
    | nil => exact absurd ((mem a).1 List.mem_cons_self) List.not_mem_nil
    | cons b m =>
      have hb := List.pairwise_cons.1 hm
      have hab : a = b := by
        rcases List.mem_cons.1 ((mem a).1 List.mem_cons_self) with e | e
        · exact e
        · rcases List.mem_cons.1 ((mem b).2 List.mem_cons_self) with f | f
          · exact f.symm
          · have h1 := hb.1 _ e
            have h2 := ha.1 _ f
            have := Std.TransCmp.lt_trans h1 h2
            simp at this
      subst hab
      congr 1
      refine ih ha.2 hb.2 fun e => ⟨fun he => ?_, fun he => ?_⟩
      · rcases List.mem_cons.1 ((mem e).1 (List.mem_cons_of_mem _ he)) with h | h
        · subst h
          have := ha.1 _ he
          simp at this
        · exact h
      · rcases List.mem_cons.1 ((mem e).2 (List.mem_cons_of_mem _ he)) with h | h
        · subst h
          have := hb.1 _ he
          simp at this
        · exact h

/-- Entries in order, inserted one after the other, go before those that were there. -/
theorem get?_foldl_insert [DecidableEq κ] {l : List (κ × ν)}
    (hl : l.Pairwise (fun a b => compare a.1 b.1 = .lt)) (m : SortedMap κ ν) (k : κ) :
    (l.foldl (fun m e => m.insert e.1 e.2) m).get? k = (find k l).or (m.get? k) := by
  induction l generalizing m with
  | nil => rfl
  | cons e l ih =>
    obtain ⟨hfirst, hrest⟩ := List.pairwise_cons.1 hl
    rw [List.foldl_cons, ih hrest, get?_insert]
    by_cases hk : k = e.1
    · have hnone : find k l = none := by
        rw [Option.eq_none_iff_forall_ne_some]
        intro v hv
        have hlt := hfirst _ ((find_eq_some_iff hrest).1 hv)
        rw [hk] at hlt
        simp at hlt
      rw [if_pos hk, hnone, Option.none_or, find, if_pos (hk ▸ Std.ReflCmp.compare_self)]
      rfl
    · have hne : compare k e.1 ≠ .eq := fun heq => hk (Std.LawfulEqCmp.eq_of_compare heq)
      rw [if_neg hk, find, if_neg hne]

/-- Maps with the same look-ups are equal. -/
theorem ext_get? {m n : SortedMap κ ν} (h : ∀ k, m.get? k = n.get? k) : m = n :=
  ext (eq_of_find_eq m.sorted n.sorted h)

/-- A key that is put in and taken out again. -/
theorem erase_insert {m : SortedMap κ ν} {k : κ} (h : m.get? k = none) (v : ν) :
    (m.insert k v).erase k = m := by
  refine ext_get? fun k' => ?_
  rw [get?_erase]
  split
  next heq => rw [← Std.LawfulEqCmp.eq_of_compare heq, h]
  next hne =>
    refine get?_insert_of_ne m v fun heq => hne ?_
    rw [heq]
    exact Std.ReflCmp.compare_self

/-- The entries of a map make it up. -/
theorem ofList_entries [DecidableEq κ] (m : SortedMap κ ν) : ofList m.entries = m := by
  refine ext_get? fun k => ?_
  rw [ofList, get?_foldl_insert m.sorted, get?_empty, Option.or_none]
  rfl

end SortedMap

end Workflow
