import Mathlib.Data.List.Chain
import Mathlib.Data.List.DropRight
import Workflow.Proofs.CatchingUp

/-!
# Revisions that arrive in any order

A ring takes up revisions as they arrive. One that continues the ring lets those follow that waited
for it; others wait behind the gap. So a ring is without gaps at any time, and once all have arrived
it does not show in which order they did, unless too many had to wait.
-/

set_option autoImplicit false

namespace Workflow

namespace Ring

variable {r : Ring}

/-! ### Entries pushed one after the other -/

/-- Revisions that follow each other, after a given one. -/
def Follow (high : Int) (states : List State) : Prop :=
  ∀ (i : Nat) (s : State), states[i]? = some s → s.rev = high + 1 + i

theorem follow_nil (high : Int) : Follow high [] := fun _ _ hs => nomatch hs

theorem follow_cons_iff {high : Int} {s : State} {states : List State} :
    Follow high (s :: states) ↔ s.rev = high + 1 ∧ Follow (high + 1) states := by
  constructor
  · intro h
    refine ⟨by simpa using h 0 s rfl, fun i t ht => ?_⟩
    have hrev := h (i + 1) t ht
    omega
  · rintro ⟨hfirst, hrest⟩ i t ht
    cases i with
    | zero =>
      cases ht
      simpa using hfirst
    | succ i =>
      have hrev := hrest i t ht
      omega

theorem high?_foldl_push {states : List State} {high : Int} (hhigh : r.high? = some high)
    (hfollow : Follow high states) :
    (states.foldl push r).high? = some (high + states.length) := by
  induction states generalizing r high with
  | nil => simpa using hhigh
  | cons s rest ih =>
    obtain ⟨hrev, hrest⟩ := follow_cons_iff.1 hfollow
    rw [List.foldl_cons, ih ((r.high?_push s).trans (congrArg some hrev)) hrest, List.length_cons]
    congr 1
    omega

theorem capacity_foldl_push (states : List State) (r : Ring) :
    (states.foldl push r).capacity = r.capacity :=
  List.foldlRecOn (motive := fun pushed : Ring => pushed.capacity = r.capacity) _ _ rfl
    fun _ h _ _ => h

theorem rtake_rtake_append (n : Nat) (l more : List State) :
    (l.rtake n ++ more).rtake n = (l ++ more).rtake n := by
  simp only [List.rtake_eq_reverse_take_reverse, List.reverse_append, List.reverse_reverse,
    List.take_append, List.take_take]
  congr 3
  omega

theorem rtake_of_length_le {n : Nat} {l : List State} (h : l.length ≤ n) : l.rtake n = l := by
  rw [List.rtake, Nat.sub_eq_zero_of_le h, List.drop_zero]

theorem entries_push (h : r.entries.length ≤ r.capacity) (s : State) :
    (r.push s).entries = (r.entries ++ [s]).rtake r.capacity := by
  have hpos := r.positive
  unfold push
  split
  next hfull =>
    have hne : r.entries ≠ [] := List.ne_nil_of_length_pos (hfull ▸ hpos)
    change r.entries.tail ++ [s] = _
    rw [List.rtake, List.length_append, List.length_singleton, ← hfull, Nat.add_sub_cancel_left,
      List.drop_one, List.tail_append_of_ne_nil hne]
  next hroom =>
    rw [rtake_of_length_le]
    rw [List.length_append, List.length_singleton]
    omega

theorem entries_foldl_push (h : r.entries.length ≤ r.capacity) (states : List State) :
    (states.foldl push r).entries = (r.entries ++ states).rtake r.capacity := by
  induction states generalizing r with
  | nil => rw [List.foldl_nil, List.append_nil, rtake_of_length_le h]
  | cons s rest ih =>
    rw [List.foldl_cons, ih (length_push_le s h), entries_push h]
    change ((r.entries ++ [s]).rtake r.capacity ++ rest).rtake r.capacity = _
    rw [rtake_rtake_append, List.append_assoc, List.singleton_append]

/-- The entries follow each other. -/
def Contiguous (r : Ring) : Prop := r.entries.IsChain fun a b => b.rev = a.rev + 1

theorem Follow.isChain {high : Int} {states : List State} (h : Follow high states) :
    states.IsChain fun a b => b.rev = a.rev + 1 := by
  rw [List.isChain_iff_getElem]
  intro i hi
  have hfirst := h i _ (List.getElem?_eq_getElem (Nat.lt_of_succ_lt hi))
  have hsecond := h (i + 1) _ (List.getElem?_eq_getElem hi)
  omega

theorem Contiguous.foldl_push (h : r.Contiguous) (hbounded : r.entries.length ≤ r.capacity)
    {high : Int} (hhigh : r.high? = some high) {states : List State}
    (hfollow : Follow high states) :
    (states.foldl push r).Contiguous := by
  obtain ⟨last, hlast, hrev⟩ := Option.map_eq_some_iff.1 hhigh
  unfold Contiguous
  rw [entries_foldl_push hbounded]
  refine List.IsChain.drop (List.isChain_append.2 ⟨h, hfollow.isChain, fun x hx y hy => ?_⟩) _
  cases hlast.symm.trans hx
  rw [Option.mem_def, List.head?_eq_getElem?] at hy
  have hnext := hfollow 0 y hy
  omega

theorem Contiguous.push (h : r.Contiguous) (hbounded : r.entries.length ≤ r.capacity) {s : State}
    (hnext : ∀ high, r.high? = some high → s.rev = high + 1) : (r.push s).Contiguous := by
  cases hhigh : r.high? with
  | some high =>
    have hone : Follow high [s] := follow_cons_iff.2 ⟨hnext high hhigh, follow_nil _⟩
    exact h.foldl_push hbounded hhigh hone
  | none =>
    unfold Contiguous
    rw [entries_push hbounded, high?_eq_none_iff.1 hhigh]
    exact List.IsChain.drop (List.isChain_singleton s) _

/-! ### What had to wait -/

theorem exists_foldl_extend {list : List (Int × State)}
    (hsorted : list.Pairwise fun a b => compare a.1 b.1 = .lt)
    (hfiled : ∀ e ∈ list, e.2.rev = e.1) {high : Int} (hhigh : r.high? = some high) :
    ∃ states : List State, list.foldl extend r = states.foldl push r ∧ Follow high states ∧
      (∀ s ∈ states, (s.rev, s) ∈ list) ∧ ∀ s, (high + 1 + states.length, s) ∉ list := by
  induction list generalizing r high with
  | nil => exact ⟨[], rfl, follow_nil high, List.forall_mem_nil _, fun _ => List.not_mem_nil⟩
  | cons e rest ih =>
    obtain ⟨key, t⟩ := e
    obtain ⟨hfirst, hordered⟩ := List.pairwise_cons.1 hsorted
    obtain ⟨hrev, hrevs⟩ := List.forall_mem_cons.1 hfiled
    rw [List.foldl_cons, extend, hhigh]
    split
    next heq =>
      have hkey : high = key - 1 := Option.some.inj heq
      obtain rfl : key = high + 1 := by omega
      obtain ⟨states, hfold, hfollow, hmem, hend⟩ :=
        ih hordered hrevs ((r.high?_push t).trans (congrArg some hrev))
      refine ⟨t :: states, hfold, follow_cons_iff.2 ⟨hrev, hfollow⟩, ?_, fun s hs => ?_⟩
      · refine List.forall_mem_cons.2 ⟨?_, fun s hs => List.mem_cons_of_mem _ (hmem s hs)⟩
        rw [hrev]
        exact List.mem_cons_self
      · rw [List.length_cons] at hs
        rcases List.mem_cons.1 hs with hsame | hrest
        · have hkey := congrArg Prod.fst hsame
          simp only at hkey
          omega
        · refine hend s ?_
          rw [show high + 1 + 1 + (states.length : Int) = high + 1 + (states.length + 1 : Nat) by
            omega]
          exact hrest
    next hne =>
      obtain ⟨states, hfold, hfollow, hmem, hend⟩ := ih hordered hrevs hhigh
      refine ⟨states, hfold, hfollow, fun s hs => List.mem_cons_of_mem _ (hmem s hs),
        fun s hs => ?_⟩
      rcases List.mem_cons.1 hs with hsame | hrest
      · have hkey : high + 1 + (states.length : Int) = key := congrArg Prod.fst hsame
        cases states with
        | nil =>
          rw [List.length_nil] at hkey
          exact hne (congrArg some (by omega))
        | cons u _ =>
          have hlt : key < u.rev := Int.compare_eq_lt.1 (hfirst _ (hmem u List.mem_cons_self))
          have hnext := (follow_cons_iff.1 hfollow).1
          rw [List.length_cons] at hkey
          omega
      · exact hend s hrest

theorem exists_settle (hfiled : ∀ rev s, r.waiting.get? rev = some s → s.rev = rev) {high : Int}
    (hhigh : r.high? = some high) :
    ∃ states : List State, Follow high states ∧ (∀ s ∈ states, r.waiting.get? s.rev = some s) ∧
      r.waiting.get? (high + 1 + states.length) = none ∧
      r.settle = { states.foldl push r with
        waiting := r.waiting.filter fun rev _ => high + states.length < rev } := by
  obtain ⟨states, hfold, hfollow, hmem, hend⟩ := exists_foldl_extend r.waiting.sorted
    (fun e he => hfiled e.1 e.2 (r.waiting.get?_eq_some_iff.2 he)) hhigh
  refine ⟨states, hfollow, fun s hs => r.waiting.get?_eq_some_iff.2 (hmem s hs), ?_, ?_⟩
  · exact Option.eq_none_iff_forall_ne_some.2 fun s hs => hend s (r.waiting.get?_eq_some_iff.1 hs)
  · unfold settle
    simp only [hfold, high?_foldl_push hhigh hfollow, Option.all_some]

/-! ### Rings of offers -/

/-- What holds of every ring that comes about by offers. -/
structure Sound (r : Ring) : Prop extends Tidy r where
  contiguous : r.Contiguous
  /-- What waits is filed under its revision. -/
  filed : ∀ rev s, r.waiting.get? rev = some s → s.rev = rev
  gap : ∀ high, r.high? = some high → r.waiting.get? (high + 1) = none
  few : r.waiting.size ≤ waitingLimit

theorem sound_of_empty (hentries : r.entries = []) (hwaiting : r.waiting = ∅) : r.Sound := by
  refine ⟨tidy_of_empty hentries hwaiting, ?_, fun rev s hs => ?_, fun high _ => ?_, ?_⟩
  · unfold Contiguous
    rw [hentries]
    exact .nil
  · rw [hwaiting] at hs
    cases hs
  · rw [hwaiting]
    rfl
  · rw [hwaiting]
    exact Nat.zero_le _

theorem sound_ofCapacity (n : Nat) : (ofCapacity n).Sound := sound_of_empty rfl rfl

section

variable (h : r.Sound) {s : State}

include h

theorem Sound.beyond {rev : Int} (hs : r.waiting.get? rev = some s) :
    ∃ high, r.high? = some high ∧ high + 1 < rev := by
  obtain ⟨high, hhigh, hlt⟩ := h.ahead rev s hs
  refine ⟨high, hhigh, ?_⟩
  have hne : rev ≠ high + 1 := by
    rintro rfl
    cases hs.symm.trans (h.gap high hhigh)
  omega

theorem Sound.settle_push (hnext : ∀ high, r.high? = some high → s.rev = high + 1) :
    (r.push s).settle.Sound := by
  have hhigh := r.high?_push s
  obtain ⟨states, hfollow, -, hend, hsettle⟩ := exists_settle (r := r.push s) h.filed hhigh
  have hpushed := high?_foldl_push hhigh hfollow
  have hcontiguous := (h.contiguous.push h.bounded hnext).foldl_push (length_push_le s h.bounded)
    hhigh hfollow
  have htidy := h.toTidy.settle_push s
  rw [hsettle] at htidy ⊢
  refine ⟨htidy, hcontiguous, fun rev t ht => ?_, fun high hsame => ?_, ?_⟩
  · exact h.filed rev t (SortedMap.get?_filter_eq_some_iff _ |>.1 ht).1
  · cases hpushed.symm.trans hsame
    rw [Option.eq_none_iff_forall_ne_some]
    intro t ht
    have hwaited := (SortedMap.get?_filter_eq_some_iff _ |>.1 ht).1
    rw [Int.add_right_comm] at hwaited
    cases hwaited.symm.trans hend
  · exact Nat.le_trans (SortedMap.size_filter_le ..) h.few

theorem Sound.offer (s : State) : (r.offer s).Sound := by
  rcases r.offer_cases s with ⟨hnext, heq⟩ | ⟨_, _, _, heq⟩ | ⟨_, heq⟩ |
    ⟨high, hhigh, hgap, hfew, heq⟩
  · rw [heq]
    exact h.settle_push hnext
  · rw [heq]
    exact h
  · rw [heq]
    exact sound_of_empty rfl rfl
  · have htidy := h.toTidy.offer s
    rw [heq] at htidy ⊢
    refine ⟨htidy, h.contiguous, fun rev t ht => ?_, fun high' hsame => ?_, hfew⟩
    · rw [SortedMap.get?_insert] at ht
      split at ht
      next hkey =>
        cases ht
        exact hkey.symm
      next => exact h.filed rev t ht
    · cases hhigh.symm.trans hsame
      have hne : high + 1 ≠ s.rev := by omega
      exact (SortedMap.get?_insert_of_ne _ _ hne).trans (h.gap high hhigh)

theorem Sound.entries_offer_eq_nil_iff : (r.offer s).entries = [] ↔ r.Overflows s := by
  have hsome {high : Int} (hhigh : r.high? = some high) : r.entries ≠ [] := fun hnil =>
    nomatch hhigh.symm.trans (high?_eq_none_iff.2 hnil)
  rcases r.offer_cases s with ⟨hnext, heq⟩ | ⟨high, hhigh, hle, heq⟩ | ⟨hmany, heq⟩ |
    ⟨high, hhigh, _, hfew, heq⟩
  · obtain ⟨states, hfollow, -, -, hsettle⟩ :=
      exists_settle (r := r.push s) h.filed (r.high?_push s)
    have hpushed := high?_foldl_push (r.high?_push s) hfollow
    rw [heq, hsettle]
    constructor
    · exact fun hnil => nomatch hpushed.symm.trans (high?_eq_none_iff.2 hnil)
    · rintro ⟨high, hhigh, hgap, -⟩
      have hrev := hnext high hhigh
      omega
  · rw [heq]
    constructor
    · exact fun hnil => absurd hnil (hsome hhigh)
    · rintro ⟨high', hsame, hgap, -⟩
      cases hhigh.symm.trans hsame
      omega
  · rw [heq]
    exact ⟨fun _ => hmany, fun _ => rfl⟩
  · rw [heq]
    exact ⟨fun hnil => absurd hnil (hsome hhigh),
      fun hmany => absurd hmany (not_overflows_of_size_le hfew)⟩

end

theorem Sound.offers (h : r.Sound) (states : List State) : (states.foldl Ring.offer r).Sound :=
  List.foldlRecOn (motive := Sound) _ _ h fun _ hsound s _ => hsound.offer s

/-! #### Look-ups -/

theorem Contiguous.follow (h : r.Contiguous) {low : Int} (hlow : r.low? = some low) :
    Follow low r.entries := by
  obtain ⟨first, hfirst, hrev⟩ := Option.map_eq_some_iff.1 hlow
  intro i
  induction i with
  | zero =>
    intro s hs
    rw [List.head?_eq_getElem?] at hfirst
    cases hfirst.symm.trans hs
    omega
  | succ i ih =>
    intro s hs
    obtain ⟨hi, rfl⟩ := List.getElem?_eq_some_iff.1 hs
    have hbefore := ih _ (List.getElem?_eq_getElem (Nat.lt_of_succ_lt hi))
    have hnext := List.isChain_iff_getElem.1 h i hi
    omega

theorem Contiguous.get?_of_covers (h : r.Contiguous) {rev : Int} (hcovers : r.covers rev = true) :
    ∃ s ∈ r.entries, r.get? rev = some s ∧ s.rev = rev := by
  unfold covers at hcovers
  split at hcovers
  next low high hlow hhigh =>
    rw [Bool.and_eq_true, decide_eq_true_eq, decide_eq_true_eq] at hcovers
    obtain ⟨hlt, hle⟩ := hcovers
    obtain ⟨before, last, hentries, hlast⟩ := high?_eq_some hhigh
    have hfollow := h.follow hlow
    have hend := hfollow before.length last (by rw [hentries, List.getElem?_concat_length])
    have hindex : (rev - low - 1).toNat < r.entries.length := by
      rw [hentries, List.length_append, List.length_singleton]
      omega
    have hat := List.getElem?_eq_getElem hindex
    refine ⟨_, List.getElem_mem hindex, ?_, ?_⟩
    · unfold get?
      rw [hlow, Option.bind_some, if_pos hlt, hat]
    · rw [hfollow _ _ hat]
      omega
  next => cases hcovers

/-! ### What has arrived -/

section

variable {m : Int} {state : Int → State} {S : Int → Prop} {k : Nat} {last : Ring}

/-- The states of the next revisions after `m`. -/
def stretch (state : Int → State) (m : Int) (k : Nat) : List State :=
  (List.range k).map fun i : Nat => state (m + 1 + i)

theorem stretch_add (state : Int → State) (m : Int) (k j : Nat) :
    stretch state m (k + j) = stretch state m k ++ stretch state (m + k) j := by
  unfold stretch
  rw [List.range_add, List.map_append, List.map_map]
  refine congrArg (_ ++ ·) (List.map_congr_left fun i _ => congrArg state ?_)
  change m + 1 + ((k + i : Nat) : Int) = m + k + 1 + i
  omega

theorem Follow.eq_stretch {states : List State} (h : Follow m states)
    (hstate : ∀ s ∈ states, s = state s.rev) : states = stretch state m states.length := by
  refine List.ext_getElem (by simp [stretch]) fun i hi _ => ?_
  have hrev := h i _ (List.getElem?_eq_getElem hi)
  rw [hstate _ (List.getElem_mem hi), hrev]
  simp [stretch]

theorem length_stretch (state : Int → State) (m : Int) (k : Nat) :
    (stretch state m k).length = k := by
  simp [stretch]

/-- If each waiting revision has a known state, the ring goes on with a stretch of these. -/
theorem exists_settle_stretch (hfiled : ∀ rev s, r.waiting.get? rev = some s → s.rev = rev)
    (hstate : ∀ rev s, r.waiting.get? rev = some s → s = state rev) (hhigh : r.high? = some m) :
    ∃ j : Nat, Follow m (stretch state m j) ∧
      (∀ rev, m < rev → rev ≤ m + j → r.waiting.get? rev = some (state rev)) ∧
      r.waiting.get? (m + j + 1) = none ∧
      r.settle = { (stretch state m j).foldl push r with
        waiting := r.waiting.filter fun rev _ => m + j < rev } := by
  obtain ⟨states, hfollow, hmem, hend, hsettle⟩ := exists_settle hfiled hhigh
  have hstretch := hfollow.eq_stretch fun s hs => hstate _ s (hmem s hs)
  refine ⟨states.length, hstretch ▸ hfollow, fun rev hlt hle => ?_, ?_, ?_⟩
  · have hi : (rev - m - 1).toNat < states.length := by omega
    have hget := hmem _ (List.getElem_mem hi)
    have hrev : states[(rev - m - 1).toNat].rev = rev := by
      rw [hfollow _ _ (List.getElem?_eq_getElem hi)]
      omega
    rw [hrev] at hget
    rw [hget, ← hstate rev _ hget]
  · rwa [Int.add_right_comm] at hend
  · rw [hsettle, ← hstretch]

/-- What a ring with the last revision `m` has become when the revisions of `S` have arrived: it has
gone on with those up to the first gap, which are `k`, and the others wait. -/
structure Took (r : Ring) (m : Int) (state : Int → State) (S : Int → Prop) (k : Nat)
    (last : Ring) : Prop where
  capacity_eq : last.capacity = r.capacity
  high_eq : last.high? = some (m + k)
  arrived : ∀ rev, m < rev → rev ≤ m + k → S rev
  gap : ¬ S (m + k + 1)
  entries_eq : last.entries = (r.entries ++ stretch state m k).rtake r.capacity
  waiting_iff : ∀ rev s, last.waiting.get? rev = some s ↔ S rev ∧ m + k < rev ∧ s = state rev

theorem took_refl (h : r.Sound) (hhigh : r.high? = some m)
    (hstate : ∀ rev s, r.waiting.get? rev = some s → s = state rev) :
    Took r m state (fun rev => r.waiting.contains rev = true) 0 r where
  capacity_eq := rfl
  high_eq := by simpa using hhigh
  arrived := fun rev hlt hle => by omega
  gap := by
    have hnone := h.gap m hhigh
    simp [SortedMap.contains, hnone]
  entries_eq := by
    rw [stretch, List.range_zero, List.map_nil, List.append_nil, rtake_of_length_le h.bounded]
  waiting_iff := by
    intro rev s
    constructor
    · intro hs
      obtain ⟨high, hsame, hlt⟩ := h.beyond hs
      cases hhigh.symm.trans hsame
      refine ⟨?_, by omega, hstate rev s hs⟩
      rw [SortedMap.contains, hs, Option.isSome_some]
    · rintro ⟨hwaits, -, rfl⟩
      obtain ⟨t, ht⟩ := Option.isSome_iff_exists.1 hwaits
      rw [ht, hstate rev t ht]

theorem Took.settle_push (h : Took r m state S k last) (hlast : last.Sound) {x : Int}
    (hx : x = m + k + 1) (hrev : (state x).rev = x) :
    ∃ k', Took r m state (fun rev => S rev ∨ rev = x) k' (last.push (state x)).settle := by
  have hhigh : (last.push (state x)).high? = some x :=
    (last.high?_push _).trans (congrArg some hrev)
  obtain ⟨j, hfollow, hwaited, hend, hsettle⟩ := exists_settle_stretch
    (r := last.push (state x)) hlast.filed (fun rev s hs => ((h.waiting_iff rev s).1 hs).2.2) hhigh
  have hpushed : state x :: stretch state x j = stretch state (m + k) (j + 1) := by
    rw [Nat.add_comm j 1, stretch_add, hx]
    simp [stretch]
  rw [hsettle]
  refine ⟨k + (j + 1), ?_, ?_, fun rev hlt hle => ?_, ?_, ?_, fun rev s => ?_⟩
  · exact (capacity_foldl_push _ _).trans h.capacity_eq
  · refine (high?_foldl_push hhigh hfollow).trans (congrArg some ?_)
    rw [length_stretch]
    omega
  · rcases Int.lt_or_le (m + k) rev with hbeyond | hbefore
    · rcases Int.lt_or_eq_of_le (show x ≤ rev by omega) with hwaits | hnext
      · exact .inl ((h.waiting_iff _ _).1 (hwaited rev hwaits (by omega))).1
      · exact .inr hnext.symm
    · exact .inl (h.arrived rev hlt hbefore)
  · rintro (hS | heq)
    · have hkey : m + ((k + (j + 1) : Nat) : Int) + 1 = x + j + 1 := by omega
      rw [hkey] at hS
      cases hend.symm.trans ((h.waiting_iff _ _).2 ⟨hS, by omega, rfl⟩)
    · omega
  · change ((stretch state x j).foldl push (last.push (state x))).entries = _
    rw [← List.foldl_cons, hpushed, entries_foldl_push hlast.bounded, h.entries_eq, h.capacity_eq,
      rtake_rtake_append, List.append_assoc, ← stretch_add]
  · rw [SortedMap.get?_filter_eq_some_iff]
    change last.waiting.get? rev = some s ∧ decide (x + j < rev) = true ↔ _
    rw [h.waiting_iff, decide_eq_true_eq]
    constructor
    · rintro ⟨⟨hS, -, hs⟩, hlt⟩
      exact ⟨.inl hS, by omega, hs⟩
    · rintro ⟨hS | rfl, hlt, hs⟩
      · exact ⟨⟨hS, by omega, hs⟩, by omega⟩
      · omega

theorem Took.offer (h : Took r m state S k last) (hlast : last.Sound) {x : Int} (hx : m < x)
    (hrev : (state x).rev = x) (hcopes : ¬ last.Overflows (state x)) :
    ∃ k', Took r m state (fun rev => S rev ∨ rev = x) k' (last.offer (state x)) := by
  rcases last.offer_cases (state x) with ⟨hnext, heq⟩ | ⟨high, hhigh, hle, heq⟩ | ⟨hmany, _⟩ |
    ⟨high, hhigh, hgap, _, heq⟩
  · rw [heq]
    exact h.settle_push hlast (hrev ▸ hnext _ h.high_eq) hrev
  · cases h.high_eq.symm.trans hhigh
    have hS : S x := h.arrived x hx (hrev ▸ hle)
    have hsame : (fun rev => S rev ∨ rev = x) = S := by
      funext rev
      exact propext (or_iff_left_of_imp fun hrev => hrev ▸ hS)
    rw [heq, hsame]
    exact ⟨k, h⟩
  · exact absurd hmany hcopes
  · cases h.high_eq.symm.trans hhigh
    rw [hrev] at hgap
    rw [heq, hrev]
    refine ⟨k, h.capacity_eq, h.high_eq, fun rev hlt hle => .inl (h.arrived rev hlt hle), ?_,
      h.entries_eq, fun rev s => ?_⟩
    · rintro (hS | hsame)
      · exact h.gap hS
      · omega
    · rw [SortedMap.get?_insert]
      split
      next hkey =>
        subst hkey
        constructor
        · intro hs
          cases hs
          exact ⟨.inr rfl, by omega, rfl⟩
        · rintro ⟨-, -, rfl⟩
          rfl
      next hkey =>
        rw [h.waiting_iff, or_iff_left hkey]

/-- The ring is the same, whatever it took to get there. -/
theorem Took.unique {k' : Nat} {last' : Ring} (h : Took r m state S k last)
    (h' : Took r m state S k' last') : last = last' := by
  have hle {i j : Nat} {a b : Ring} (ha : Took r m state S i a) (hb : Took r m state S j b) :
      i ≤ j := by
    by_contra hlt
    exact hb.gap (ha.arrived _ (by omega) (by omega))
  obtain rfl : k = k' := Nat.le_antisymm (hle h h') (hle h' h)
  have hcapacity := h.capacity_eq.trans h'.capacity_eq.symm
  have hentries := h.entries_eq.trans h'.entries_eq.symm
  have hwaiting : last.waiting = last'.waiting := by
    refine SortedMap.ext_get? fun rev => Option.ext fun s => ?_
    rw [h.waiting_iff, h'.waiting_iff]
  cases last
  cases last'
  simp only at hcapacity hentries hwaiting
  subst hcapacity hentries hwaiting
  rfl

end

/-! ### Any order -/

/-- None of the revisions, offered one after the other, makes too many wait. -/
def Copes (r : Ring) (states : List State) : Prop :=
  ∀ before s after, states = before ++ s :: after → ¬ (before.foldl Ring.offer r).Overflows s

theorem size_waiting_offer_le (r : Ring) (s : State) :
    (r.offer s).waiting.size ≤ r.waiting.size + 1 := by
  rcases r.offer_cases s with ⟨_, heq⟩ | ⟨_, _, _, heq⟩ | ⟨_, heq⟩ | ⟨_, _, _, _, heq⟩
  · rw [heq]
    exact Nat.le_succ_of_le (SortedMap.size_filter_le ..)
  · rw [heq]
    exact Nat.le_succ _
  · rw [heq]
    exact Nat.zero_le _
  · rw [heq]
    exact SortedMap.size_insert_le ..

theorem size_waiting_offers_le (r : Ring) (states : List State) :
    (states.foldl Ring.offer r).waiting.size ≤ r.waiting.size + states.length := by
  induction states generalizing r with
  | nil => exact Nat.le_refl _
  | cons s rest ih =>
    have hfirst := r.size_waiting_offer_le s
    have hrest := ih (r.offer s)
    rw [List.foldl_cons, List.length_cons]
    omega

theorem copes_of_size_le {states : List State}
    (h : r.waiting.size + states.length ≤ waitingLimit) : r.Copes states := by
  rintro before s after rfl
  refine not_overflows_of_size_le ?_
  have hbefore := r.size_waiting_offers_le before
  have hinsert := (before.foldl Ring.offer r).waiting.size_insert_le s.rev s
  rw [List.length_append, List.length_cons] at h
  omega

/-- In whatever order revisions arrive, they are taken up together with those that waited before. -/
theorem took_offers (h : r.Sound) {m : Int} (hhigh : r.high? = some m) {state : Int → State}
    (hstate : ∀ rev s, r.waiting.get? rev = some s → s = state rev) {order : List Int}
    (horder : ∀ rev ∈ order, m < rev ∧ (state rev).rev = rev)
    (hcopes : r.Copes (order.map state)) :
    ∃ k, r.Took m state (fun rev => rev ∈ order ∨ r.waiting.contains rev = true) k
      ((order.map state).foldl Ring.offer r) := by
  induction order using List.reverseRecOn with
  | nil =>
    have hnone : (fun rev => rev ∈ ([] : List Int) ∨ r.waiting.contains rev = true) =
        fun rev => r.waiting.contains rev = true := by
      funext rev
      exact propext (or_iff_right List.not_mem_nil)
    rw [hnone]
    exact ⟨0, took_refl h hhigh hstate⟩
  | append_singleton order x ih =>
    obtain ⟨hx, hrev⟩ := horder x (List.mem_append_right _ List.mem_cons_self)
    rw [List.map_append, List.map_singleton] at hcopes ⊢
    obtain ⟨k, htook⟩ := ih (fun rev hmem => horder rev (List.mem_append_left _ hmem))
      fun before s after hsplit => hcopes before s (after ++ [state x]) (by simp [hsplit])
    have hmore : (fun rev => rev ∈ order ++ [x] ∨ r.waiting.contains rev = true) =
        fun rev => (rev ∈ order ∨ r.waiting.contains rev = true) ∨ rev = x := by
      funext rev
      rw [List.mem_append, List.mem_singleton, or_right_comm]
    rw [hmore, List.foldl_append]
    exact htook.offer (h.offers _) hx hrev (hcopes _ _ [] rfl)

/-- A ring that comes about by offers holds at most as many entries as its capacity, which follow
each other. It ends up empty only if too many wait, and then nothing waits any more; what waits is
filed under its revision, behind a gap; and a revision that it covers is found. If the ring does not
end up empty while more revisions arrive, it holds the last of those up to the first gap, the others
wait, and their order does not matter. -/
theorem holds_what_arrived_in_any_order (n : Nat) (offers : List State) :
    let r := offers.foldl offer (ofCapacity n)
    r.capacity = max n 1 ∧ r.entries.length ≤ r.capacity ∧
    (r.entries.IsChain fun a b => b.rev = a.rev + 1) ∧
    (∀ s, ((r.offer s).entries = [] ↔ r.Overflows s) ∧
      (r.Overflows s → (r.offer s).waiting = ∅)) ∧
    (∀ rev s, r.waiting.get? rev = some s →
      s.rev = rev ∧ ∃ high, r.high? = some high ∧ high + 1 < rev) ∧
    r.waiting.size ≤ 100 ∧
    (∀ rev, r.covers rev = true → ∃ s ∈ r.entries, r.get? rev = some s ∧ s.rev = rev) ∧
    ∀ (m : Int) (state : Int → State) (order : List Int), r.high? = some m →
      (∀ rev s, r.waiting.get? rev = some s → s = state rev) →
      (∀ rev ∈ order, m < rev ∧ (state rev).rev = rev) → r.Copes (order.map state) →
      let last := (order.map state).foldl offer r
      (∃ k, r.Took m state (fun rev => rev ∈ order ∨ r.waiting.contains rev = true) k last) ∧
        ∀ order' : List Int, (∀ rev, rev ∈ order' ↔ rev ∈ order) → r.Copes (order'.map state) →
          (order'.map state).foldl offer r = last := by
  intro r
  have h : r.Sound := (sound_ofCapacity n).offers offers
  have hcapacity : r.capacity = max n 1 :=
    List.foldlRecOn (motive := fun grown : Ring => grown.capacity = max n 1) _ _ rfl
      fun grown hsame s _ => (grown.capacity_offer s).trans hsame
  refine ⟨hcapacity, h.bounded, h.contiguous,
    fun s => ⟨h.entries_offer_eq_nil_iff, fun hmany => ?_⟩,
    fun rev s hs => ⟨h.filed rev s hs, h.beyond hs⟩, h.few,
    fun rev => h.contiguous.get?_of_covers, ?_⟩
  · rw [hmany.offer_eq]
  · intro m state order hhigh hstate horder hcopes last
    have htook := took_offers h hhigh hstate horder hcopes
    refine ⟨htook, fun order' hsame hcopes' => ?_⟩
    obtain ⟨k, htook⟩ := htook
    obtain ⟨k', htook'⟩ := took_offers h hhigh hstate
      (fun rev hmem => horder rev ((hsame rev).1 hmem)) hcopes'
    simp only [hsame] at htook'
    exact htook'.unique htook

/-- A ring for three entries that has two of them gets the next revision last. -/
theorem holds_what_arrived_in_any_order_of_late_revision :
    let state (rev : Int) : State := { State.new ⟨"w"⟩ with rev := rev }
    let r := [state 1, state 2].foldl offer (ofCapacity 3)
    let order : List Int := [6, 4, 3]
    let last := (order.map state).foldl offer r
    (r.high? = some 2 ∧ (∀ rev s, r.waiting.get? rev = some s → s = state rev) ∧
      (∀ rev ∈ order, 2 < rev ∧ (state rev).rev = rev) ∧ r.Copes (order.map state)) ∧
      r.Took 2 state (fun rev => rev ∈ order ∨ r.waiting.contains rev = true) 2 last ∧
      last.entries = [state 2, state 3, state 4] ∧ last.waiting.keys = [6] ∧
      ([3, 6, 4].map state).foldl offer r = last := by
  intro state r order last
  have hhigh : r.high? = some 2 := by decide +kernel
  have hstate : ∀ rev s, r.waiting.get? rev = some s → s = state rev := fun _ _ => nofun
  have horder : ∀ rev ∈ order, 2 < rev ∧ (state rev).rev = rev := by decide
  have hcopes : r.Copes (order.map state) := copes_of_size_le (by decide +kernel)
  have hcopes' : r.Copes ([3, 6, 4].map state) := copes_of_size_le (by decide +kernel)
  have hlast : last.high? = some 4 := by decide +kernel
  have hperm : [3, 6, 4].Perm order := by decide
  obtain ⟨-, -, -, -, -, -, -, htakes⟩ := holds_what_arrived_in_any_order 3 [state 1, state 2]
  obtain ⟨⟨k, htook⟩, hany⟩ := htakes 2 state order hhigh hstate horder hcopes
  obtain rfl : k = 2 := by
    have hsame := Option.some.inj (htook.high_eq.symm.trans hlast)
    omega
  exact ⟨⟨hhigh, hstate, horder, hcopes⟩, htook, by decide +kernel, by decide +kernel,
    hany _ (fun _ => hperm.mem_iff) hcopes'⟩

end Ring

end Workflow
