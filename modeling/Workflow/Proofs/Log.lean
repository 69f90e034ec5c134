import Mathlib.Data.List.Basic
import Mathlib.Data.List.Infix
import Workflow.Store.Log

/-!
# Sound logs

In a sound log the entry at position `p` has revision `p + 1` and a commit time, and the index gives
each state the position of its last entry. Appending an entry with the next revision keeps this, and
then a later entry always has a greater revision.
-/

set_option autoImplicit false

namespace Workflow

namespace Log

/-- The last of some entries that belongs to a state stands at a position. -/
def LastAt (entries : List State) (id : StateId) (p : Nat) : Prop :=
  (∃ e, entries[p]? = some e ∧ e.id = id) ∧
    ∀ (q : Nat) (e : State), entries[q]? = some e → e.id = id → q ≤ p

/-- The revision of the last of some entries that belongs to a state, `0` if none does. -/
def lastRev (entries : List State) (id : StateId) : Int :=
  ((entries.filter (·.id = id)).getLast?).elim 0 State.rev

/-- The entries of a state, oldest first. -/
def of (l : Log) (id : StateId) : List State := l.entries.filter (·.id = id)

/-- An entry of a state stands immediately before another one among the entries of the state. -/
def Precedes (l : Log) (e x : State) : Prop :=
  ∃ older newer, l.of x.id = older ++ e :: x :: newer

/-- How many entries there are of other states. -/
def others (l : Log) (id : StateId) : Nat := l.entries.countP fun e => e.id ≠ id

structure Sound (l : Log) : Prop where
  numbered : ∀ (p : Nat) (e : State), l.entries[p]? = some e → e.rev = (p : Int) + 1
  dated : ∀ (p : Nat) (e : State), l.entries[p]? = some e → e.committedAt.isSome
  indexed : ∀ (id : StateId) (p : Nat), l.latest.get? id = some p ↔ LastAt l.entries id p

/-! ### The last entry of a state -/

private theorem getElem?_concat_eq_some {entries : List State} {s e : State} {p : Nat} :
    (entries ++ [s])[p]? = some e ↔ entries[p]? = some e ∨ p = entries.length ∧ e = s := by
  rw [List.getElem?_append]
  split
  next hlt =>
    constructor
    · exact Or.inl
    · rintro (he | ⟨hp, -⟩)
      · exact he
      · omega
  next hle =>
    rw [List.getElem?_singleton, List.getElem?_eq_none (by omega)]
    constructor
    · intro he
      split at he
      · exact .inr ⟨by omega, (Option.some.inj he).symm⟩
      · cases he
    · rintro (he | ⟨rfl, rfl⟩)
      · cases he
      · simp

theorem lastAt_append (entries : List State) (s : State) (id : StateId) (p : Nat) :
    LastAt (entries ++ [s]) id p ↔
      if id = s.id then p = entries.length else LastAt entries id p := by
  simp only [LastAt, getElem?_concat_eq_some]
  split
  next heq =>
    constructor
    · rintro ⟨⟨e, he, -⟩, hmax⟩
      have hle := hmax entries.length s (.inr ⟨rfl, rfl⟩) heq.symm
      rcases he with he | ⟨hp, -⟩
      · have hlt := (List.getElem?_eq_some_iff.1 he).1
        omega
      · exact hp
    · rintro rfl
      refine ⟨⟨s, .inr ⟨rfl, rfl⟩, heq.symm⟩, ?_⟩
      rintro q e (he | ⟨rfl, -⟩) -
      · exact Nat.le_of_lt (List.getElem?_eq_some_iff.1 he).1
      · exact Nat.le_refl _
  next hne =>
    constructor
    · rintro ⟨⟨e, he | ⟨-, rfl⟩, hid⟩, hmax⟩
      · exact ⟨⟨e, he, hid⟩, fun q f hf => hmax q f (.inl hf)⟩
      · exact absurd hid.symm hne
    · rintro ⟨⟨e, he, hid⟩, hmax⟩
      refine ⟨⟨e, .inl he, hid⟩, ?_⟩
      rintro q f (hf | ⟨-, rfl⟩) hfid
      · exact hmax q f hf hfid
      · exact absurd hfid.symm hne

theorem exists_lastAt_iff (entries : List State) (id : StateId) :
    (∃ p, LastAt entries id p) ↔ id ∈ entries.map State.id := by
  induction entries using List.reverseRecOn with
  | nil => simp [LastAt]
  | append_singleton entries s ih =>
    simp only [lastAt_append, List.map_append, List.mem_append, List.map_singleton,
      List.mem_singleton]
    by_cases h : id = s.id
    · simp [h]
    · simp [h, ih]

theorem getElem?_mono {entries longer : List State} (hpre : entries <+: longer) {p : Nat}
    {e : State} (he : entries[p]? = some e) : longer[p]? = some e := by
  obtain ⟨added, rfl⟩ := hpre
  rw [List.getElem?_append_left (List.getElem?_eq_some_iff.1 he).1, he]

theorem lastRev_append_singleton (entries : List State) (s : State) (id : StateId) :
    lastRev (entries ++ [s]) id = if s.id = id then s.rev else lastRev entries id := by
  unfold lastRev
  rw [List.filter_append]
  by_cases h : s.id = id
  · simp [h]
  · simp [h]

theorem lastRev_append_of_notMem (entries : List State) {added : List State} {id : StateId}
    (h : id ∉ added.map State.id) : lastRev (entries ++ added) id = lastRev entries id := by
  have hnone : added.filter (·.id = id) = [] := by
    rw [List.filter_eq_nil_iff]
    intro e he hid
    exact h (List.mem_map.2 ⟨e, he, of_decide_eq_true hid⟩)
  unfold lastRev
  rw [List.filter_append, hnone, List.append_nil]

theorem lastAt_rev {entries : List State} {id : StateId} {p : Nat} {e : State}
    (h : LastAt entries id p) (he : entries[p]? = some e) : lastRev entries id = e.rev := by
  induction entries using List.reverseRecOn with
  | nil => simp at he
  | append_singleton entries s ih =>
    rw [lastAt_append] at h
    rw [lastRev_append_singleton]
    split at h
    next heq =>
      subst h
      have : s = e := by simpa using he
      rw [if_pos heq.symm, this]
    next hne =>
      obtain ⟨f, hf, -⟩ := h.1
      have hlt := (List.getElem?_eq_some_iff.1 hf).1
      rw [List.getElem?_append_left hlt] at he
      rw [if_neg (Ne.symm hne)]
      exact ih h he

theorem mem_of_iff {l : Log} {id : StateId} {e : State} :
    e ∈ l.of id ↔ e ∈ l.entries ∧ e.id = id := by
  rw [of, List.mem_filter, decide_eq_true_iff]

theorem append_ne (l : Log) (s : State) : l.append s ≠ l := by
  intro h
  have hlength := congrArg (fun l => l.entries.length) h
  simp [entries_append] at hlength

theorem of_append (l : Log) (s : State) (id : StateId) :
    (l.append s).of id = if s.id = id then l.of id ++ [s] else l.of id := by
  unfold of
  rw [entries_append, List.filter_append]
  by_cases h : s.id = id
  · simp [h]
  · simp [h]

theorem prefix_of {l m : Log} (h : l.entries <+: m.entries) (id : StateId) :
    l.of id <+: m.of id :=
  h.filter _

theorem Precedes.mono {l m : Log} {e x : State} (h : l.Precedes e x)
    (hpre : l.entries <+: m.entries) : m.Precedes e x := by
  obtain ⟨older, newer, hof⟩ := h
  obtain ⟨added, hadded⟩ := prefix_of hpre x.id
  refine ⟨older, newer ++ added, ?_⟩
  rw [← hadded, hof]
  simp

theorem others_append (l : Log) (s : State) (id : StateId) :
    (l.append s).others id = l.others id + if s.id = id then 0 else 1 := by
  unfold others
  rw [entries_append, List.countP_append]
  by_cases h : s.id = id
  · simp [h]
  · simp [h]

/-! ### Soundness -/

theorem sound_empty : Sound empty where
  numbered := by simp [empty]
  dated := by simp [empty]
  indexed := by
    intro id p
    change (∅ : SortedMap StateId Nat).get? id = some p ↔ LastAt [] id p
    simp [SortedMap.get?_empty, LastAt]

theorem Sound.append {l : Log} (h : l.Sound) {s : State} (hrev : s.rev = l.nextRev)
    (htime : s.committedAt.isSome) : (l.append s).Sound where
  numbered := by
    intro p e he
    rcases getElem?_concat_eq_some.1 he with he | ⟨rfl, rfl⟩
    · exact h.numbered p e he
    · rw [hrev, nextRev, head]
  dated := by
    intro p e he
    rcases getElem?_concat_eq_some.1 he with he | ⟨-, rfl⟩
    · exact h.dated p e he
    · exact htime
  indexed := by
    intro id p
    rw [entries_append, lastAt_append]
    change (l.latest.insert s.id l.entries.length).get? id = some p ↔ _
    rw [SortedMap.get?_insert]
    split
    · simp [eq_comm]
    · exact h.indexed id p

section

variable {l : Log} (h : l.Sound)

include h

theorem Sound.latestRev_eq (id : StateId) : l.latestRev id = lastRev l.entries id := by
  unfold latestRev latest?
  cases hp : l.latest.get? id with
  | none =>
    have hno : ¬ ∃ p, LastAt l.entries id p := by
      rintro ⟨p, hlast⟩
      rw [(h.indexed id p).2 hlast] at hp
      cases hp
    rw [exists_lastAt_iff] at hno
    simpa [lastRev] using (lastRev_append_of_notMem [] hno).symm
  | some p =>
    have hlast := (h.indexed id p).1 hp
    obtain ⟨e, he, -⟩ := hlast.1
    simp only [Option.bind_some, he, Option.elim_some]
    exact (lastAt_rev hlast he).symm

theorem Sound.revs :
    l.entries.map State.rev = (List.range l.entries.length).map (Nat.cast · + 1) := by
  apply List.ext_getElem?
  intro p
  rw [List.getElem?_map, List.getElem?_map]
  cases he : l.entries[p]? with
  | none =>
    have hlen : (List.range l.entries.length).length ≤ p := by
      rw [List.length_range]
      exact List.getElem?_eq_none_iff.1 he
    rw [List.getElem?_eq_none hlen]
    rfl
  | some e =>
    have hlt := (List.getElem?_eq_some_iff.1 he).1
    rw [List.getElem?_range hlt]
    exact congrArg some (h.numbered p e he)

theorem Sound.rev_lt : l.entries.Pairwise fun e f => e.rev < f.rev := by
  rw [List.pairwise_iff_getElem]
  intro p q hp hq hpq
  have he := h.numbered p _ (List.getElem?_eq_getElem hp)
  have hf := h.numbered q _ (List.getElem?_eq_getElem hq)
  omega

theorem Sound.contains_iff (id : StateId) :
    l.latest.contains id = true ↔ id ∈ l.entries.map State.id := by
  rw [← exists_lastAt_iff, SortedMap.contains, Option.isSome_iff_exists]
  exact exists_congr fun p => h.indexed id p

theorem Sound.lastRev_le (id : StateId) (entries : List State) (hpre : entries <+: l.entries) :
    lastRev entries id ≤ entries.length := by
  by_cases hmem : id ∈ entries.map State.id
  · obtain ⟨p, hlast⟩ := (exists_lastAt_iff entries id).2 hmem
    obtain ⟨e, he, -⟩ := hlast.1
    have hlt := (List.getElem?_eq_some_iff.1 he).1
    have hrev := h.numbered p e (getElem?_mono hpre he)
    rw [lastAt_rev hlast he, hrev]
    omega
  · have hzero := lastRev_append_of_notMem [] hmem
    rw [List.nil_append] at hzero
    rw [hzero]
    exact Int.natCast_nonneg _

theorem Sound.lastRev_lt {before added : List State} (hsplit : l.entries = before ++ added)
    {id : StateId} (hmem : id ∈ added.map State.id) :
    lastRev before id < lastRev l.entries id := by
  have hle := h.lastRev_le id before ⟨added, hsplit.symm⟩
  obtain ⟨s, hs, hid⟩ := List.mem_map.1 hmem
  obtain ⟨q, hq⟩ := List.mem_iff_getElem?.1 hs
  have hlater : l.entries[before.length + q]? = some s := by
    rw [hsplit, List.getElem?_append_right (Nat.le_add_right _ _), Nat.add_sub_cancel_left, hq]
  have hin : id ∈ l.entries.map State.id :=
    List.mem_map.2 ⟨s, List.mem_of_getElem? hlater, hid⟩
  obtain ⟨p, hlast⟩ := (exists_lastAt_iff l.entries id).2 hin
  obtain ⟨e, he, -⟩ := hlast.1
  have hge := hlast.2 _ s hlater hid
  rw [lastAt_rev hlast he, h.numbered p e he]
  omega

theorem Sound.lastRev_mono {before : List State} (hpre : before <+: l.entries) (id : StateId) :
    lastRev before id ≤ lastRev l.entries id := by
  obtain ⟨added, hsplit⟩ := hpre
  by_cases hmem : id ∈ added.map State.id
  · exact Int.le_of_lt (h.lastRev_lt hsplit.symm hmem)
  · have hsame := lastRev_append_of_notMem before hmem
    rw [hsplit] at hsame
    exact Int.le_of_eq hsame.symm

/-! ### The entries of a state -/

theorem Sound.rev_of_mem {e : State} (he : e ∈ l.entries) : 0 < e.rev ∧ e.rev ≤ l.head := by
  obtain ⟨p, hp⟩ := List.mem_iff_getElem?.1 he
  have hlt := (List.getElem?_eq_some_iff.1 hp).1
  have hrev := h.numbered p e hp
  unfold head
  omega

theorem Sound.eq_of_rev_eq {e f : State} (he : e ∈ l.entries) (hf : f ∈ l.entries)
    (hrev : e.rev = f.rev) : e = f := by
  obtain ⟨p, hp⟩ := List.mem_iff_getElem?.1 he
  obtain ⟨q, hq⟩ := List.mem_iff_getElem?.1 hf
  have hep := h.numbered p e hp
  have hfq := h.numbered q f hq
  obtain rfl : p = q := by omega
  exact Option.some.inj (hp.symm.trans hq)

theorem Sound.latest?_eq_some_iff {id : StateId} {e : State} :
    l.latest? id = some e ↔
      e ∈ l.entries ∧ e.id = id ∧ ∀ f ∈ l.entries, f.id = id → f.rev ≤ e.rev := by
  unfold latest?
  rw [Option.bind_eq_some_iff]
  constructor
  · rintro ⟨p, hp, he⟩
    obtain ⟨⟨e', he', hid⟩, hmax⟩ := (h.indexed id p).1 hp
    obtain rfl : e' = e := Option.some.inj (he'.symm.trans he)
    refine ⟨List.mem_of_getElem? he, hid, fun f hf hfid => ?_⟩
    obtain ⟨q, hq⟩ := List.mem_iff_getElem?.1 hf
    have hle := hmax q f hq hfid
    have hfrev := h.numbered q f hq
    have herev := h.numbered p e' he
    omega
  · rintro ⟨hmem, hid, hmax⟩
    obtain ⟨p, hp⟩ := List.mem_iff_getElem?.1 hmem
    refine ⟨p, (h.indexed id p).2 ⟨⟨e, hp, hid⟩, fun q f hq hfid => ?_⟩, hp⟩
    have hle := hmax f (List.mem_of_getElem? hq) hfid
    have hfrev := h.numbered q f hq
    have herev := h.numbered p e hp
    omega

theorem Sound.latest?_eq_none_iff {id : StateId} :
    l.latest? id = none ↔ ∀ e ∈ l.entries, e.id ≠ id := by
  constructor
  · intro hnone e he hid
    obtain ⟨p, hlast⟩ := (exists_lastAt_iff l.entries id).2 (List.mem_map.2 ⟨e, he, hid⟩)
    obtain ⟨f, hf, -⟩ := hlast.1
    rw [latest?, (h.indexed id p).2 hlast, Option.bind_some, hf] at hnone
    cases hnone
  · intro hno
    rw [Option.eq_none_iff_forall_ne_some]
    intro e he
    obtain ⟨hmem, hid, -⟩ := h.latest?_eq_some_iff.1 he
    exact hno e hmem hid

theorem Sound.latest?_of_rev_eq {e : State} (he : e ∈ l.entries)
    (hrev : e.rev = l.latestRev e.id) : l.latest? e.id = some e := by
  unfold latestRev at hrev
  cases hlast : l.latest? e.id with
  | none => exact absurd rfl (h.latest?_eq_none_iff.1 hlast e he)
  | some f =>
    rw [hlast, Option.elim_some] at hrev
    obtain ⟨hmem, -, -⟩ := h.latest?_eq_some_iff.1 hlast
    rw [h.eq_of_rev_eq he hmem hrev]

theorem Sound.latest?_eq_getLast? (id : StateId) : l.latest? id = (l.of id).getLast? := by
  cases hlast : (l.of id).getLast? with
  | none =>
    rw [List.getLast?_eq_none_iff] at hlast
    rw [h.latest?_eq_none_iff]
    intro e he hid
    exact List.not_mem_nil (hlast ▸ mem_of_iff.2 ⟨he, hid⟩)
  | some e =>
    obtain ⟨before, hsplit⟩ := List.getLast?_eq_some_iff.1 hlast
    have hmem : e ∈ l.of id := by
      rw [hsplit]
      exact List.mem_append_right _ List.mem_cons_self
    refine h.latest?_eq_some_iff.2 ⟨(mem_of_iff.1 hmem).1, (mem_of_iff.1 hmem).2, ?_⟩
    intro f hf hid
    have hin : f ∈ before ++ [e] := hsplit ▸ mem_of_iff.2 ⟨hf, hid⟩
    have hsorted : (before ++ [e]).Pairwise fun a b => a.rev < b.rev :=
      hsplit ▸ h.rev_lt.filter _
    rcases List.mem_append.1 hin with hin | hin
    · exact Int.le_of_lt ((List.pairwise_append.1 hsorted).2.2 f hin e List.mem_cons_self)
    · exact Int.le_of_eq (congrArg State.rev (List.mem_singleton.1 hin))

theorem Sound.precedes_append {e x : State} (he : l.latest? x.id = some e) :
    (l.append x).Precedes e x := by
  rw [h.latest?_eq_getLast?] at he
  obtain ⟨older, hof⟩ := List.getLast?_eq_some_iff.1 he
  refine ⟨older, [], ?_⟩
  rw [of_append, if_pos rfl, hof, List.append_assoc, List.singleton_append]

theorem Sound.eq_of_precedes {e f x : State} (he : l.Precedes e x) {older newer : List State}
    (hof : l.of x.id = older ++ f :: x :: newer) : e = f := by
  obtain ⟨older', newer', hof'⟩ := he
  have hsorted : (l.of x.id).Pairwise fun a b => a.rev < b.rev := h.rev_lt.filter _
  have hleft : l.of x.id = (older' ++ [e]) ++ x :: newer' := by simpa using hof'
  have hright : l.of x.id = (older ++ [f]) ++ x :: newer := by simpa using hof
  rw [hleft] at hsorted
  obtain ⟨-, hafter, hbefore⟩ := List.pairwise_append.1 hsorted
  have hnotold : x ∉ older' ++ [e] := fun hx =>
    Int.lt_irrefl _ (hbefore x hx x List.mem_cons_self)
  have hnotnew : x ∉ newer' := fun hx =>
    Int.lt_irrefl _ ((List.pairwise_cons.1 hafter).1 x hx)
  have hsame := (List.append_cons_inj_of_notMem hnotold hnotnew).1 (hleft.symm.trans hright)
  simpa using (List.append_inj' hsame.1 rfl).2

end

theorem mem_of_mem_page {l : Log} {q : StateQuery} {e : State} (he : e ∈ (l.page q).items) :
    e ∈ l.entries := by
  rw [page_eq_ofList] at he
  obtain ⟨⟨f, p⟩, hf, rfl⟩ := List.mem_map.1 (List.mem_of_mem_take he)
  have hmem := List.mem_of_mem_drop (List.mem_filter.1 hf).1
  exact List.mem_of_getElem? (List.mk_mem_zipIdx_iff_getElem?.1 hmem)

theorem filter_lt_rev {entries : List State} {low since : Nat} (hle : low ≤ since)
    (hnumbered : ∀ (p : Nat) (e : State), entries[p]? = some e → e.rev = (low : Int) + p + 1) :
    entries.filter (fun e => decide ((since : Int) < e.rev)) = entries.drop (since - low) := by
  induction entries generalizing low with
  | nil => simp
  | cons e rest ih =>
    have hfirst := hnumbered 0 e rfl
    by_cases hlt : low < since
    · have hnext (p : Nat) (f : State) (hf : rest[p]? = some f) :
          f.rev = ((low + 1 : Nat) : Int) + p + 1 := by
        have hrev := hnumbered (p + 1) f hf
        omega
      have hrest := ih (by omega) hnext
      rw [List.filter_cons_of_neg (by simp; omega), hrest,
        show since - low = since - (low + 1) + 1 by omega, List.drop_succ_cons]
    · obtain rfl : low = since := by omega
      rw [Nat.sub_self, List.drop_zero, List.filter_eq_self]
      intro f hf
      obtain ⟨p, hp⟩ := List.mem_iff_getElem?.1 hf
      have hrev := hnumbered p f hp
      exact decide_eq_true (by omega)

theorem get?_mono {l m : Log} (hpre : l.entries <+: m.entries) {rev : Int} {e : State}
    (he : l.get? rev = some e) : m.get? rev = some e := by
  unfold get? at he ⊢
  split at he
  next hpos =>
    rw [if_pos hpos]
    exact getElem?_mono hpre he
  next => cases he

/-! ### The next entry -/

/-- The entry continues the log at a time, as a revision of a state with the given notes. -/
structure Next (l : Log) (now : Instant) (id : StateId) (notes : Notes) (e : State) : Prop where
  id_eq : e.id = id
  rev_eq : e.rev = l.nextRev
  time_eq : e.committedAt = some now
  notes_eq : e.annotations = notes

section

variable {l : Log} {now : Instant} {id : StateId} {notes : Notes} {e : State}

theorem Next.sound (h : l.Next now id notes e) (hl : l.Sound) : (l.append e).Sound :=
  hl.append h.rev_eq (by rw [h.time_eq]; rfl)

theorem Next.latest?_append (h : l.Next now id notes e) (hl : l.Sound) (other : StateId) :
    (l.append e).latest? other = if id = other then some e else l.latest? other := by
  rw [(h.sound hl).latest?_eq_getLast?, hl.latest?_eq_getLast?, of_append, h.id_eq]
  split
  · exact List.getLast?_concat
  · rfl

end

end Log

end Workflow
