import Workflow.Proofs.Log
import Workflow.Repository

/-!
# Rings that mirror a log

The entries of a ring are a stretch of the log without gaps, whatever entries of the log it is
offered, and in whatever order. So within the stretch the ring answers as the log does, cut after
the last entry of the ring.
-/

set_option autoImplicit false

namespace Workflow

namespace Log

/-! ### Logs cut after a revision -/

def ofEntries (entries : List State) : Log := entries.foldl append empty

/-- The log as it was when the revision was the last one. -/
def upTo (l : Log) (rev : Int) : Log := ofEntries (l.entries.take rev.toNat)

theorem ofEntries_append_singleton (entries : List State) (s : State) :
    ofEntries (entries ++ [s]) = (ofEntries entries).append s :=
  List.foldl_append

theorem entries_ofEntries (entries : List State) : (ofEntries entries).entries = entries := by
  induction entries using List.reverseRecOn with
  | nil => rfl
  | append_singleton entries s ih => rw [ofEntries_append_singleton, entries_append, ih]

theorem entries_upTo (l : Log) (rev : Int) : (l.upTo rev).entries = l.entries.take rev.toNat :=
  entries_ofEntries _

theorem Sound.eq_of_entries_eq {l m : Log} (hl : l.Sound) (hm : m.Sound)
    (h : l.entries = m.entries) : l = m := by
  obtain ⟨entries, latest⟩ := l
  obtain ⟨entries', latest'⟩ := m
  obtain rfl : entries = entries' := h
  have hlatest : latest = latest' := by
    refine SortedMap.ext_get? fun id => Option.ext fun p => ?_
    exact (hl.indexed id p).trans (hm.indexed id p).symm
  rw [hlatest]

theorem Sound.ofEntries {l : Log} (h : l.Sound) {entries : List State}
    (hpre : entries <+: l.entries) : (ofEntries entries).Sound := by
  induction entries using List.reverseRecOn with
  | nil => exact sound_empty
  | append_singleton entries s ih =>
    have hs : l.entries[entries.length]? = some s :=
      getElem?_mono hpre List.getElem?_concat_length
    rw [ofEntries_append_singleton]
    refine (ih ((List.prefix_append _ _).trans hpre)).append ?_ (h.dated _ s hs)
    rw [h.numbered _ s hs, nextRev, head, entries_ofEntries]

theorem Sound.upTo_head {l : Log} (h : l.Sound) : l.upTo l.head = l := by
  have htake : l.entries.take l.head.toNat = l.entries := by
    rw [head, Int.toNat_natCast, List.take_length]
  refine (h.ofEntries (List.take_prefix _ _)).eq_of_entries_eq h ?_
  rw [entries_ofEntries, htake]

theorem page_of_not_latestOnly (l : Log) {q : StateQuery} (h : q.latestOnly = false) :
    l.page q =
      Page.ofList q.pageLength ((l.entries.drop (l.startOf q.sinceRev)).filter q.accepts) := by
  have hmap : (l.entries.zipIdx.drop (l.startOf q.sinceRev)).map Prod.fst =
      l.entries.drop (l.startOf q.sinceRev) := by
    rw [List.map_drop, List.zipIdx_map_fst]
  rw [page_eq_ofList]
  simp only [h, Bool.not_false, Bool.true_or, Bool.and_true]
  rw [← hmap, List.filter_map]
  rfl

theorem page_of_unasked (l : Log) {q : StateQuery} (hlatest : q.latestOnly = false)
    (hlabels : q.labels = []) (htime : q.sinceTime = none) :
    l.page q = Page.ofList q.pageLength (l.entries.drop (l.startOf q.sinceRev)) := by
  have hall (s : State) : q.accepts s = true := by
    simp [StateQuery.accepts, hlabels, htime]
  rw [page_of_not_latestOnly l hlatest, List.filter_eq_self.2 fun s _ => hall s]

end Log

namespace Ring

/-- The entries of the ring are a stretch of the log, and what waits are entries of the log under
their revisions. -/
structure Mirrors (r : Ring) (l : Log) : Prop where
  window : r.entries <:+: l.entries
  waiting : ∀ rev s, r.waiting.get? rev = some s → s ∈ l.entries ∧ s.rev = rev

theorem mirrors_of_empty {r : Ring} {l : Log} (hentries : r.entries = [])
    (hwaiting : r.waiting = ∅) : r.Mirrors l := by
  refine ⟨?_, fun rev s hs => ?_⟩
  · rw [hentries]
    exact List.nil_infix
  · rw [hwaiting, SortedMap.get?_empty] at hs
    cases hs

theorem mirrors_ofCapacity (n : Nat) (l : Log) : (ofCapacity n).Mirrors l :=
  mirrors_of_empty rfl rfl

theorem high?_eq_some {r : Ring} {high : Int} (h : r.high? = some high) :
    ∃ before last, r.entries = before ++ [last] ∧ last.rev = high := by
  obtain ⟨last, hlast, hrev⟩ := Option.map_eq_some_iff.1 h
  obtain ⟨before, hsplit⟩ := List.getLast?_eq_some_iff.1 hlast
  exact ⟨before, last, hsplit, hrev⟩

theorem high?_eq_none_iff {r : Ring} : r.high? = none ↔ r.entries = [] := by
  rw [high?, Option.map_eq_none_iff, List.getLast?_eq_none_iff]

/-! ### What an offer does -/

/-- With the revision too many would wait. -/
def Overflows (r : Ring) (s : State) : Prop :=
  ∃ high, r.high? = some high ∧ high + 1 < s.rev ∧
    waitingLimit < (r.waiting.insert s.rev s).size

/-- What a ring does with a revision: it goes on with it and with what waited for it, ignores it,
empties itself, or lets it wait. -/
theorem offer_cases (r : Ring) (s : State) :
    ((∀ high, r.high? = some high → s.rev = high + 1) ∧ r.offer s = (r.push s).settle) ∨
    (∃ high, r.high? = some high ∧ s.rev ≤ high ∧ r.offer s = r) ∨
    (r.Overflows s ∧ r.offer s = { r with entries := [], waiting := ∅ }) ∨
    ∃ high, r.high? = some high ∧ high + 1 < s.rev ∧
      (r.waiting.insert s.rev s).size ≤ waitingLimit ∧
      r.offer s = { r with waiting := r.waiting.insert s.rev s } := by
  unfold offer
  split
  next hnone =>
    refine .inl ⟨fun high hhigh => ?_, rfl⟩
    cases hnone.symm.trans hhigh
  next high hhigh =>
    split
    next hle => exact .inr (.inl ⟨high, hhigh, hle, rfl⟩)
    next hgt =>
      split
      next hnext =>
        refine .inl ⟨fun high' hsame => ?_, rfl⟩
        cases hhigh.symm.trans hsame
        exact hnext
      next hlater =>
        have hgap : high + 1 < s.rev := by omega
        simp only
        split
        next hmany => exact .inr (.inr (.inl ⟨⟨high, hhigh, hgap, hmany⟩, rfl⟩))
        next hfew => exact .inr (.inr (.inr ⟨high, hhigh, hgap, Nat.le_of_not_lt hfew, rfl⟩))

theorem not_overflows_of_size_le {r : Ring} {s : State}
    (h : (r.waiting.insert s.rev s).size ≤ waitingLimit) : ¬ r.Overflows s := by
  rintro ⟨_, _, _, hmany⟩
  omega

theorem Overflows.offer_eq {r : Ring} {s : State} (h : r.Overflows s) :
    r.offer s = { r with entries := [], waiting := ∅ } := by
  have hmany := h
  obtain ⟨high, hhigh, hgap, hsize⟩ := h
  rcases r.offer_cases s with ⟨hnext, _⟩ | ⟨high', hsame, hle, _⟩ | ⟨_, heq⟩ | ⟨_, _, _, hfew, _⟩
  · have hrev := hnext high hhigh
    omega
  · cases hhigh.symm.trans hsame
    omega
  · exact heq
  · exact absurd hmany (not_overflows_of_size_le hfew)

section

variable {r : Ring} {l : Log} (h : r.Mirrors l)

include h

theorem Mirrors.mono {longer : Log} (hpre : l.entries <+: longer.entries) : r.Mirrors longer :=
  ⟨h.window.trans hpre.isInfix, fun rev s hs =>
    ⟨hpre.subset (h.waiting rev s hs).1, (h.waiting rev s hs).2⟩⟩

variable (hl : l.Sound)

include hl

theorem Mirrors.window_append {high : Int} (hhigh : r.high? = some high) {s : State}
    (hs : s ∈ l.entries) (hrev : s.rev = high + 1) : r.entries ++ [s] <:+: l.entries := by
  obtain ⟨before, last, hentries, hlast⟩ := high?_eq_some hhigh
  obtain ⟨a, b, hsplit⟩ := h.window
  obtain ⟨p, hp⟩ := List.mem_iff_getElem?.1 hs
  have hlastAt : l.entries[a.length + before.length]? = some last := by
    rw [← hsplit, hentries]
    simp
  have hplast := hl.numbered _ last hlastAt
  have hps := hl.numbered p s hp
  obtain rfl : p = (a ++ r.entries).length := by
    rw [hentries]
    simp only [List.length_append, List.length_singleton]
    omega
  rw [← hsplit, List.getElem?_append_right (Nat.le_refl _), Nat.sub_self] at hp
  cases b with
  | nil => cases hp
  | cons t rest =>
    obtain rfl : t = s := Option.some.inj hp
    refine ⟨a, rest, ?_⟩
    rw [← hsplit]
    simp

theorem Mirrors.push {s : State} (hs : s ∈ l.entries)
    (hnext : ∀ high, r.high? = some high → s.rev = high + 1) : (r.push s).Mirrors l := by
  have hwhole : r.entries ++ [s] <:+: l.entries := by
    cases hhigh : r.high? with
    | none =>
      obtain ⟨a, b, hsplit⟩ := List.append_of_mem hs
      rw [high?_eq_none_iff.1 hhigh]
      exact ⟨a, b, by rw [hsplit]; simp⟩
    | some high => exact h.window_append hl hhigh hs (hnext high hhigh)
  refine ⟨?_, h.waiting⟩
  unfold Ring.push
  split
  · obtain ⟨dropped, hdropped⟩ := List.tail_suffix r.entries
    have htail : r.entries.tail ++ [s] <:+ r.entries ++ [s] :=
      ⟨dropped, by rw [← List.append_assoc, hdropped]⟩
    exact htail.isInfix.trans hwhole
  · exact hwhole

theorem Mirrors.extend {w : Int × State} (hw : w.2 ∈ l.entries ∧ w.2.rev = w.1) :
    (r.extend w).Mirrors l := by
  unfold Ring.extend
  split
  next hhigh =>
    refine h.push hl hw.1 fun high hsame => ?_
    rw [hhigh] at hsame
    cases hsame
    omega
  next => exact h

omit hl in
theorem Mirrors.mem_waiting {w : Int × State} (hw : w ∈ r.waiting.entries) :
    w.2 ∈ l.entries ∧ w.2.rev = w.1 :=
  h.waiting w.1 w.2 (r.waiting.get?_eq_some_iff.2 hw)

theorem Mirrors.settle : r.settle.Mirrors l := by
  have hgrown : (r.waiting.entries.foldl Ring.extend r).Mirrors l :=
    List.foldlRecOn (motive := fun grown : Ring => grown.Mirrors l) _ _ h
      fun _ hmirrors _ hw => hmirrors.extend hl (h.mem_waiting hw)
  refine ⟨hgrown.window, fun rev s hs => ?_⟩
  exact h.waiting rev s (SortedMap.get?_filter_eq_some_iff _ |>.1 hs).1

theorem Mirrors.offer {s : State} (hs : s ∈ l.entries) : (r.offer s).Mirrors l := by
  rcases r.offer_cases s with ⟨hnext, heq⟩ | ⟨_, _, _, heq⟩ | ⟨_, heq⟩ | ⟨_, _, _, _, heq⟩
  · rw [heq]
    exact (h.push hl hs hnext).settle hl
  · rw [heq]
    exact h
  · rw [heq]
    exact mirrors_of_empty rfl rfl
  · rw [heq]
    refine ⟨h.window, fun rev t ht => ?_⟩
    rw [SortedMap.get?_insert] at ht
    split at ht
    next hkey =>
      cases ht
      exact ⟨hs, hkey.symm⟩
    next => exact h.waiting rev t ht

theorem Mirrors.offers {states : List State} (hstates : ∀ s ∈ states, s ∈ l.entries) :
    (states.foldl Ring.offer r).Mirrors l :=
  List.foldlRecOn (motive := fun r : Ring => r.Mirrors l) _ _ h
    fun _ hmirrors s hs => hmirrors.offer hl (hstates s hs)

theorem Mirrors.high_bounds {high : Int} (hhigh : r.high? = some high) :
    0 < high ∧ high ≤ l.head := by
  obtain ⟨before, last, hentries, rfl⟩ := high?_eq_some hhigh
  have hlast : last ∈ r.entries := by rw [hentries]; simp
  exact hl.rev_of_mem (h.window.subset hlast)

/-! ### How far a ring reaches -/

omit h hl in
/-- The ring goes as far as the revision at least. -/
def Reaches (r : Ring) (rev : Int) : Prop := ∃ high, r.high? = some high ∧ rev ≤ high

end

theorem reaches_push (r : Ring) (s : State) : (r.push s).Reaches s.rev :=
  ⟨s.rev, high?_push r s, Int.le_refl _⟩

theorem Reaches.extend {r : Ring} {rev : Int} (h : r.Reaches rev) {w : Int × State}
    (hw : w.2.rev = w.1) : (r.extend w).Reaches rev := by
  unfold Ring.extend
  split
  next hhigh =>
    obtain ⟨high, hsome, hle⟩ := h
    rw [hhigh] at hsome
    cases hsome
    exact ⟨w.2.rev, high?_push r w.2, by omega⟩
  next => exact h

theorem Reaches.settle {r : Ring} {rev : Int} (h : r.Reaches rev) {l : Log} (hr : r.Mirrors l) :
    r.settle.Reaches rev :=
  List.foldlRecOn (motive := fun grown : Ring => grown.Reaches rev) _ _ h
    fun _ hreaches _ hw => hreaches.extend (hr.mem_waiting hw).2

theorem offer_of_reaches {r : Ring} {s : State} (h : r.Reaches s.rev) : r.offer s = r := by
  obtain ⟨high, hhigh, hle⟩ := h
  simp only [offer, hhigh, if_pos hle]

theorem offers_of_reaches {r : Ring} {states : List State} (h : ∀ s ∈ states, r.Reaches s.rev) :
    states.foldl offer r = r := by
  induction states with
  | nil => rfl
  | cons s rest ih =>
    obtain ⟨hs, hrest⟩ := List.forall_mem_cons.1 h
    rw [List.foldl_cons, offer_of_reaches hs]
    exact ih hrest

section

variable {r : Ring} {l : Log} (h : r.Mirrors l) (hl : l.Sound)

include h hl

theorem Mirrors.reaches_offer {s : State} (hs : s ∈ l.entries)
    (hnext : ∀ high, r.high? = some high → s.rev ≤ high + 1) : (r.offer s).Reaches s.rev := by
  have hnear {high : Int} (hhigh : r.high? = some high) (hgap : high + 1 < s.rev) : False := by
    have hle := hnext high hhigh
    omega
  rcases r.offer_cases s with ⟨hone, heq⟩ | ⟨high, hhigh, hle, heq⟩ |
    ⟨⟨_, hhigh, hgap, _⟩, _⟩ | ⟨_, hhigh, hgap, _⟩
  · rw [heq]
    exact (reaches_push r s).settle (h.push hl hs hone)
  · rw [heq]
    exact ⟨high, hhigh, hle⟩
  · exact (hnear hhigh hgap).elim
  · exact (hnear hhigh hgap).elim

theorem Mirrors.reaches_offers {n k : Nat} (hreach : r.Reaches n)
    (hlen : n + k ≤ l.entries.length) :
    (((l.entries.drop n).take k).foldl Ring.offer r).Reaches ((n + k : Nat) : Int) := by
  induction k generalizing n r with
  | zero => exact hreach
  | succ k ih =>
    have hlt : n < l.entries.length := by omega
    have hrev := hl.numbered n _ (List.getElem?_eq_getElem hlt)
    have hmem := List.getElem_mem hlt
    rw [List.drop_eq_getElem_cons hlt, List.take_succ_cons, List.foldl_cons]
    have hnext : (r.offer l.entries[n]).Reaches ((n + 1 : Nat) : Int) := by
      have hreached := h.reaches_offer hl hmem fun high hhigh => by
        obtain ⟨high', hsame, hle⟩ := hreach
        rw [hhigh] at hsame
        cases hsame
        omega
      rw [hrev] at hreached
      exact_mod_cast hreached
    have hall := ih (h.offer hl hmem) hnext (by omega)
    rwa [show n + 1 + k = n + (k + 1) by omega] at hall

theorem Mirrors.reaches_offers_drop {n : Nat} (hreach : r.Reaches n) :
    ((l.entries.drop n).foldl Ring.offer r).Reaches l.head := by
  by_cases hlen : n ≤ l.entries.length
  · have hall := h.reaches_offers hl (k := l.entries.length - n) hreach (by omega)
    rw [← List.length_drop, List.take_length, List.length_drop] at hall
    rwa [show n + (l.entries.length - n) = l.entries.length by omega] at hall
  · obtain ⟨high, hhigh, hle⟩ := hreach
    have hle' := (h.high_bounds hl hhigh).2
    unfold Log.head at hle'
    omega

theorem Mirrors.reaches_offers_of_empty {n k : Nat} (hk : n + k < l.entries.length)
    (hempty : (((l.entries.drop n).take k).foldl Ring.offer r).entries = []) :
    ((l.entries.drop n).foldl Ring.offer r).Reaches l.head := by
  have hrev := hl.numbered (n + k) _ (List.getElem?_eq_getElem hk)
  have hmem := List.getElem_mem hk
  have hbefore : (((l.entries.drop n).take k).foldl Ring.offer r).Mirrors l :=
    h.offers hl fun s hs => List.mem_of_mem_drop (List.mem_of_mem_take hs)
  rw [← List.take_append_drop k (l.entries.drop n), List.foldl_append, List.drop_drop,
    List.drop_eq_getElem_cons hk, List.foldl_cons]
  generalize ((l.entries.drop n).take k).foldl Ring.offer r = reset at hempty hbefore
  refine (hbefore.offer hl hmem).reaches_offers_drop hl ?_
  have hreached := hbefore.reaches_offer hl hmem fun high hhigh => by
    rw [high?_eq_none_iff.2 hempty] at hhigh
    cases hhigh
  rw [hrev] at hreached
  exact_mod_cast hreached

omit h in
theorem offers_drop {high : Int} (hhigh : r.high? = some high) {n : Nat}
    (hle : (n : Int) ≤ high) :
    (l.entries.drop n).foldl Ring.offer r = (l.entries.drop high.toNat).foldl Ring.offer r := by
  have hpassed : ∀ s ∈ (l.entries.drop n).take (high.toNat - n), r.Reaches s.rev := by
    intro s hs
    obtain ⟨p, hp⟩ := List.mem_iff_getElem?.1 hs
    rw [List.getElem?_take] at hp
    split at hp
    next hlt =>
      rw [List.getElem?_drop] at hp
      have hrev := hl.numbered _ s hp
      exact ⟨high, hhigh, by omega⟩
    next => cases hp
  have hrest : (l.entries.drop n).drop (high.toNat - n) = l.entries.drop high.toNat := by
    rw [List.drop_drop, show n + (high.toNat - n) = high.toNat by omega]
  rw [← List.take_append_drop (high.toNat - n) (l.entries.drop n), List.foldl_append,
    offers_of_reaches hpassed, hrest]

theorem Mirrors.high?_of_reaches_head (hreach : r.Reaches l.head) : r.high? = some l.head := by
  obtain ⟨high, hhigh, hle⟩ := hreach
  have hge := (h.high_bounds hl hhigh).2
  rw [hhigh, Int.le_antisymm hge hle]

/-! ### What a ring answers -/

theorem Mirrors.exists_window {low high : Int} (hlow : r.low? = some low)
    (hhigh : r.high? = some high) :
    ∃ a b, l.entries = a ++ r.entries ++ b ∧ low = a.length ∧ high = (a ++ r.entries).length := by
  obtain ⟨a, b, hsplit⟩ := h.window
  obtain ⟨first, hfirst, rfl⟩ := Option.map_eq_some_iff.1 hlow
  obtain ⟨before, last, hentries, rfl⟩ := high?_eq_some hhigh
  have hfirstAt : l.entries[a.length]? = some first := by
    rw [← hsplit, List.append_assoc, List.getElem?_append_right (Nat.le_refl _), Nat.sub_self,
      ← List.head?_eq_getElem?, List.head?_append, hfirst, Option.some_or]
  have hlastAt : l.entries[a.length + before.length]? = some last := by
    rw [← hsplit, hentries]
    simp
  have hfirstRev := hl.numbered _ first hfirstAt
  have hlastRev := hl.numbered _ last hlastAt
  refine ⟨a, b, hsplit.symm, by omega, ?_⟩
  rw [hentries]
  simp only [List.length_append, List.length_singleton]
  omega

theorem Mirrors.get?_of_covers {rev : Int} (hcovers : r.covers rev = true) :
    r.get? rev = l.get? rev := by
  unfold covers at hcovers
  split at hcovers
  next low high hlow hhigh =>
    obtain ⟨a, b, hsplit, rfl, rfl⟩ := h.exists_window hl hlow hhigh
    simp only [Bool.and_eq_true, decide_eq_true_eq, List.length_append] at hcovers
    have hpos : 1 ≤ rev := by omega
    have hindex : (rev - 1).toNat = a.length + (rev - a.length - 1).toNat := by omega
    have hlt : (rev - a.length - 1).toNat < r.entries.length := by omega
    rw [get?, hlow, Option.bind_some, if_pos hcovers.1, Log.get?, if_pos hpos, hsplit, hindex,
      List.append_assoc, List.getElem?_append_right (Nat.le_add_right _ _), Nat.add_sub_cancel_left,
      List.getElem?_append_left hlt]
  next => cases hcovers

theorem Mirrors.eq_find_of_find? {id : StateId} {rev : Int} {answer : Except Fault Draft}
    (hanswer : r.find? id rev = some answer) : answer = l.find id rev := by
  unfold find? at hanswer
  split at hanswer
  next hin =>
    cases hanswer
    have hne : rev ≠ 0 := by omega
    unfold Log.find
    rw [h.get?_of_covers hl hin.2]
    cases (l.get? rev).filter (·.id = id) with
    | none => simp only [if_neg hne]
    | some s => simp only [if_neg hne]
  next => cases hanswer

end

/-- The ring can answer the search: it starts inside the ring and asks for nothing that a ring
cannot tell. -/
def Serves (r : Ring) (q : StateQuery) : Prop :=
  q.sinceTime = none ∧ q.latestOnly = false ∧ 0 ≤ q.sinceRev ∧
    ∃ low high, r.low? = some low ∧ r.high? = some high ∧ low ≤ q.sinceRev ∧ q.sinceRev < high

theorem page?_of_not_serves {r : Ring} {q : StateQuery} (h : ¬ r.Serves q) : r.page? q = none := by
  unfold page?
  split
  next hasks =>
    simp only [Bool.and_eq_true, Bool.not_eq_true', Option.isNone_iff_eq_none,
      decide_eq_true_eq] at hasks
    split
    next low high hlow hhigh =>
      rw [if_neg fun hin => h ⟨hasks.1.1, hasks.1.2, hasks.2, low, high, hlow, hhigh, hin⟩]
    next => rfl
  next => rfl

theorem page?_eq_ofList {r : Ring} {q : StateQuery} (h : r.Serves q) :
    r.page? q = some (Page.ofList q.pageLength
      (r.entries.filter fun s => q.sinceRev < s.rev && q.accepts s)) := by
  obtain ⟨htime, hlatest, hnonneg, low, high, hlow, hhigh, hge, hlt⟩ := h
  unfold page?
  simp only [htime, hlatest, Option.isNone_none, Bool.not_false, Bool.and_self, hnonneg,
    decide_true, if_true, hlow, hhigh, hge, hlt, and_self, Page.collect_some]

/-- A search that the ring answers finds what the log would show, cut after the last entry of the
ring. -/
theorem Mirrors.page?_of_serves {r : Ring} {l : Log} (h : r.Mirrors l) (hl : l.Sound)
    {q : StateQuery} (hserves : r.Serves q) :
    ∃ high, r.high? = some high ∧ r.page? q = some ((l.upTo high).page q) := by
  have hpage := page?_eq_ofList hserves
  obtain ⟨-, hlatest, hnonneg, low, high, hlow, hhigh, hge, -⟩ := hserves
  obtain ⟨a, b, hsplit, rfl, rfl⟩ := h.exists_window hl hlow hhigh
  obtain ⟨since, hsince⟩ := Int.eq_ofNat_of_zero_le hnonneg
  have hnumbered (p : Nat) (e : State) (he : r.entries[p]? = some e) :
      e.rev = (a.length : Int) + p + 1 := by
    have hat : l.entries[a.length + p]? = some e := by
      have hp := (List.getElem?_eq_some_iff.1 he).1
      rw [hsplit, List.append_assoc, List.getElem?_append_right (Nat.le_add_right _ _),
        Nat.add_sub_cancel_left, List.getElem?_append_left hp, he]
    have hrev := hl.numbered _ e hat
    omega
  have hcut : (l.upTo ((a ++ r.entries).length : Int)).entries = a ++ r.entries := by
    rw [Log.entries_upTo, Int.toNat_natCast, hsplit, List.take_left]
  have hstart : (l.upTo ((a ++ r.entries).length : Int)).startOf q.sinceRev = since := by
    rw [Log.startOf, if_neg (by omega), hsince]
    rfl
  have hfound : r.entries.filter (fun s => decide (q.sinceRev < s.rev) && q.accepts s) =
      ((a ++ r.entries).drop since).filter q.accepts := by
    rw [hsince] at hge ⊢
    have hle : a.length ≤ since := by exact_mod_cast hge
    rw [List.drop_append, List.drop_eq_nil_of_le hle, List.nil_append,
      ← Log.filter_lt_rev hle hnumbered, List.filter_filter]
    congr 1
    funext s
    exact Bool.and_comm _ _
  refine ⟨_, hhigh, ?_⟩
  rw [hpage, Log.page_of_not_latestOnly _ hlatest, hstart, hcut, hfound]

end Ring

end Workflow
