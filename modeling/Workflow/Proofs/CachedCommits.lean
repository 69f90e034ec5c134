import Workflow.Proofs.CachedReads

/-!
# Commits through a cache

A cache refuses a bundle by the first tracked part on each state, a store by the first part that
works on it. Both look at the same draft unless an untracked part stands before the tracked ones; so
only then does a cache refuse what the store would take. A cache names what its ring knows, which
need not be all that is stale.
-/

set_option autoImplicit false

namespace Workflow

theorem Log.Sound.rev_le_lastRev {l : Log} (h : l.Sound) {e : State} (he : e ∈ l.entries) :
    e.rev ≤ lastRev l.entries e.id := by
  obtain ⟨before, after, hsplit⟩ := List.append_of_mem he
  have hpre : before ++ [e] <+: l.entries := ⟨after, by rw [hsplit]; simp⟩
  have hmono := h.lastRev_mono hpre e.id
  rwa [lastRev_append_singleton, if_pos rfl] at hmono

namespace Command

/-! ### First tracked parts -/

/-- The drafts of the tracked parts, in order. -/
def trackedDrafts (parts : List Command) : List Draft := (parts.filter isTracked).filterMap draft?

/-- The first part that works on the state is not tracked. -/
def StartsUntracked (id : StateId) (parts : List Command) : Prop :=
  ∃ c, parts.find? (worksOn id) = some c ∧ c.isTracked = false

theorem map_id_trackedDrafts (parts : List Command) :
    (trackedDrafts parts).map Draft.id = parts.filterMap trackedId? := by
  unfold trackedDrafts
  rw [List.filterMap_filter, List.map_filterMap]
  congr 1
  funext c
  unfold trackedId?
  cases c.isTracked <;> rfl

theorem map_id_firstOfEach (seen : List StateId) (ds : List Draft) :
    (firstOfEach seen ds).map Draft.id = ((ds.map Draft.id).filter (· ∉ seen)).eraseDups := by
  induction ds generalizing seen with
  | nil => simp [firstOfEach]
  | cons d rest ih =>
    have hmore (other : StateId) : other ∈ d.id :: seen ↔ other ∈ seen ∨ other = d.id := by
      rw [List.mem_cons, or_comm]
    have hnew := eraseDups_filter_cons (rest.map Draft.id) hmore
    unfold firstOfEach
    by_cases hmem : d.id ∈ seen
    · simp [hmem, ih]
    · rw [if_neg (by simpa using hmem), List.map_cons, List.map_cons,
        List.filter_cons_of_pos (by simpa using hmem), ih, hnew]

theorem find?_of_mem_firstOfEach {seen : List StateId} {ds : List Draft} {d : Draft}
    (h : d ∈ firstOfEach seen ds) : d.id ∉ seen ∧ ds.find? (·.id = d.id) = some d := by
  induction ds generalizing seen with
  | nil => cases h
  | cons first rest ih =>
    unfold firstOfEach at h
    rw [List.find?_cons]
    by_cases hmem : first.id ∈ seen
    · rw [if_pos (by simpa using hmem)] at h
      obtain ⟨hnew, hfind⟩ := ih h
      have hne : first.id ≠ d.id := fun heq => hnew (heq ▸ hmem)
      rw [decide_eq_false hne]
      exact ⟨hnew, hfind⟩
    · rw [if_neg (by simpa using hmem)] at h
      rcases List.mem_cons.1 h with rfl | h
      · exact ⟨hmem, by simp⟩
      · obtain ⟨hnew, hfind⟩ := ih h
        rw [List.mem_cons, not_or] at hnew
        rw [decide_eq_false (Ne.symm hnew.1)]
        exact ⟨hnew.2, hfind⟩

theorem firstDraft?_filter_isTracked (id : StateId) (parts : List Command) :
    firstDraft? id (parts.filter isTracked) = (trackedDrafts parts).find? (·.id = id) := by
  unfold firstDraft? trackedDrafts
  rw [List.find?_filterMap, List.find?_filter, List.find?_filter]
  congr 2
  funext c
  cases c <;> rfl

theorem expectedRev_filter_isTracked {id : StateId} {parts : List Command}
    (hfirst : ¬ StartsUntracked id parts) :
    expectedRev id (parts.filter isTracked) = expectedRev id parts := by
  have hsame : (parts.filter isTracked).find? (worksOn id) = parts.find? (worksOn id) := by
    rw [List.find?_filter]
    cases hfind : parts.find? (worksOn id) with
    | none =>
      rw [List.find?_eq_none] at hfind ⊢
      intro c hc hworks
      exact hfind c hc (of_decide_eq_true hworks).2
    | some first =>
      have htracked : first.isTracked = true := by
        by_contra hno
        exact hfirst ⟨first, hfind, Bool.eq_false_iff.2 hno⟩
      obtain ⟨hworks, before, after, hsplit, hidle⟩ := List.find?_eq_some_iff_append.1 hfind
      refine List.find?_eq_some_iff_append.2 ⟨?_, before, after, hsplit, fun c hc => ?_⟩
      · simp [htracked, hworks]
      · have hno := hidle c hc
        simp only [Bool.not_eq_true'] at hno
        simp [hno]
  unfold expectedRev firstDraft?
  rw [hsame]

end Command

/-! ### What a ring knows -/

namespace Ring

open Command

/-- Whether the ring has an entry of the state that is later than the revision. -/
def knowsLater (r : Ring) (id : StateId) (rev : Int) : Bool := (r.latestRev? id).any (rev < ·)

theorem conflicts_eq (r : Ring) (parts : List Command) :
    r.conflicts parts =
      (trackedIds parts).filter fun id =>
        r.knowsLater id (expectedRev id (parts.filter isTracked)) := by
  have hids : (firstOfEach [] (trackedDrafts parts)).map Draft.id = trackedIds parts := by
    rw [map_id_firstOfEach, map_id_trackedDrafts, trackedIds]
    simp
  have hrevs : ∀ d ∈ firstOfEach [] (trackedDrafts parts),
      (r.latestRev? d.id).any (d.expectedRev < ·) =
        r.knowsLater d.id (expectedRev d.id (parts.filter isTracked)) := by
    intro d hd
    rw [knowsLater, expectedRev, firstDraft?_filter_isTracked, (find?_of_mem_firstOfEach hd).2,
      Option.elim_some]
  rw [← hids, List.filter_map]
  exact congrArg (List.map Draft.id) (List.filter_congr hrevs)

theorem Mirrors.lt_lastRev {r : Ring} {l : Log} (h : r.Mirrors l) (hl : l.Sound) {id : StateId}
    {rev : Int} (hknows : r.knowsLater id rev = true) : rev < Log.lastRev l.entries id := by
  obtain ⟨latest, hlatest, hlt⟩ := (Option.any_eq_true _ _).1 hknows
  obtain ⟨e, he, rfl⟩ := Option.map_eq_some_iff.1 hlatest
  have hmem : e ∈ l.entries :=
    h.window.subset (List.mem_reverse.1 (List.mem_of_find?_eq_some he))
  have hid := List.find?_some he
  obtain rfl : e.id = id := of_decide_eq_true hid
  exact Int.lt_of_lt_of_le (of_decide_eq_true hlt) (hl.rev_le_lastRev hmem)

end Ring

/-! ### What is refused -/

namespace Repository

open Effect Command Log

theorem eq_error_of_map {α : Type} {x : Except Fault α} {fault : Fault}
    (h : (x.map fun _ => ()) = .error fault) : x = .error fault := by
  cases x with
  | error other =>
    cases h
    rfl
  | ok a => cases h

theorem answer_commit_of_direct {r : Repository} (hopen : r.gate.Open) (hfront : r.front = .direct)
    (now : Instant) (parts : List Command) :
    r.answer (commit now parts) = (r.store.commit now parts).map Prod.snd := by
  have hanswer : Leads (commit now parts) r fun outcome _ =>
      outcome = (r.store.commit now parts).map Prod.snd := by
    unfold commit
    simp only [leads_bind, leads_get, cache?, hfront, Option.map_none]
    refine leads_transact hopen (fun fault g _ hfail => ?_) fun stored done g _ hdone => ?_
    · rw [hfail]
      rfl
    · unfold offer
      simp only [leads_modify, leads_pure]
      rw [hdone]
      rfl
  exact hanswer

section

variable {r : Repository} (h : r.Mirrored) {now : Instant} {parts : List Command}

include h

theorem Mirrored.answer_wrapped_commit :
    r.wrapped.answer (commit now parts) = (r.store.commit now parts).map Prod.snd :=
  answer_commit_of_direct (r := r.wrapped) h.cached.gate rfl now parts

theorem Mirrored.exists_ends (now : Instant) (parts : List Command) :
    ∃ r', Ends now parts r (r.answer (commit now parts)) r' :=
  ⟨_, leads_commit h.cached now parts⟩

theorem Mirrored.answer_commit_of_refused (hnamed : r.ring.conflicts parts ≠ []) :
    r.answer (commit now parts) = .error (.conflict (r.ring.conflicts parts)) := by
  obtain ⟨r', hends⟩ := h.exists_ends now parts
  generalize r.answer (commit now parts) = outcome at hends ⊢
  cases hends with
  | refused => rfl
  | failed hpassed => exact absurd hpassed hnamed
  | done hpassed => exact absurd hpassed hnamed

theorem Mirrored.answer_commit_of_passed (hpassed : r.ring.conflicts parts = []) :
    r.answer (commit now parts) = r.wrapped.answer (commit now parts) := by
  obtain ⟨r', hends⟩ := h.exists_ends now parts
  rw [h.answer_wrapped_commit]
  generalize r.answer (commit now parts) = outcome at hends ⊢
  cases hends with
  | refused hnamed => exact absurd hpassed hnamed
  | failed _ hfail => rw [hfail]; rfl
  | done _ hok => rw [hok]; rfl

theorem Mirrored.stale_eq_nil_of_ok {done : List Command}
    (hok : r.wrapped.answer (commit now parts) = .ok done) : r.store.stale parts = [] := by
  rw [h.answer_wrapped_commit] at hok
  cases hcommit : r.store.commit now parts with
  | error fault =>
    rw [hcommit] at hok
    cases hok
  | ok stored => exact ((Store.exists_commit_ok_iff h.log).1 ⟨_, _, hcommit⟩).2

theorem Mirrored.stale_of_conflict {ids : List StateId}
    (hconflict : r.wrapped.answer (commit now parts) = .error (.conflict ids)) :
    ids = r.store.stale parts ∧ ids ≠ [] := by
  rw [h.answer_wrapped_commit] at hconflict
  cases hcommit : r.store.commit now parts with
  | error fault =>
    rw [hcommit] at hconflict
    cases hconflict
    exact ((Store.prepare_eq_conflict_iff h.log).1 (Store.commit_eq_error_iff.1 hcommit)).2
  | ok stored =>
    rw [hcommit] at hconflict
    cases hconflict

theorem Mirrored.lt_lastRev_of_named {id : StateId} (hid : id ∈ r.ring.conflicts parts) :
    id ∈ trackedIds parts ∧
      expectedRev id (parts.filter isTracked) < lastRev r.store.log.entries id := by
  rw [Ring.conflicts_eq] at hid
  obtain ⟨htracked, hknows⟩ := List.mem_filter.1 hid
  exact ⟨htracked, h.mirrors.lt_lastRev h.log hknows⟩

theorem Mirrored.mem_stale_or_startsUntracked {id : StateId}
    (hid : id ∈ r.ring.conflicts parts) : id ∈ r.store.stale parts ∨ StartsUntracked id parts := by
  obtain ⟨htracked, hlt⟩ := h.lt_lastRev_of_named hid
  by_cases hfirst : StartsUntracked id parts
  · exact .inr hfirst
  · rw [expectedRev_filter_isTracked hfirst] at hlt
    exact .inl (List.mem_filter.2 ⟨htracked, decide_eq_true (Int.ne_of_lt hlt)⟩)

theorem Mirrored.conflicts_eq_filter_stale
    (hfirst : ∀ id ∈ trackedIds parts, ¬ StartsUntracked id parts) :
    r.ring.conflicts parts =
      (r.store.stale parts).filter fun id => r.ring.knowsLater id (expectedRev id parts) := by
  rw [Ring.conflicts_eq, Store.stale, List.filter_filter]
  apply List.filter_congr
  intro id hid
  rw [expectedRev_filter_isTracked (hfirst id hid)]
  cases hknows : r.ring.knowsLater id (expectedRev id parts) with
  | false => rfl
  | true => simp [Int.ne_of_lt (h.mirrors.lt_lastRev h.log hknows)]

end

/-- Whatever clients did, a commit through the cache answers as the wrapped repository does, or is
refused. It is refused for tracked states that advanced beyond what the tracked parts alone expect.
Then the wrapped repository fails as well, unless each of these states is at the revision that its
first part expects, which is not tracked. -/
theorem refused_commit_fails_or_starts_untracked (capacity : Nat) (visits : List Visit)
    (now : Instant) (parts : List Command) :
    let r := run capacity visits
    let named := r.ring.conflicts parts
    (named = [] → r.answer (commit now parts) = r.wrapped.answer (commit now parts)) ∧
    (named ≠ [] → r.answer (commit now parts) = .error (.conflict named) ∧
      (∀ id ∈ named, id ∈ trackedIds parts ∧
        expectedRev id (parts.filter isTracked) < lastRev r.store.log.entries id) ∧
      ((∃ fault, r.wrapped.answer (commit now parts) = .error fault) ∨
        ∀ id ∈ named, StartsUntracked id parts ∧
          expectedRev id parts = lastRev r.store.log.entries id)) := by
  intro r named
  have h : r.Mirrored := mirrored_run capacity visits
  refine ⟨h.answer_commit_of_passed, fun hnamed => ⟨h.answer_commit_of_refused hnamed,
    fun id => h.lt_lastRev_of_named, ?_⟩⟩
  cases hanswer : r.wrapped.answer (commit now parts) with
  | error fault => exact .inl ⟨fault, rfl⟩
  | ok done =>
    have hstale := h.stale_eq_nil_of_ok hanswer
    refine .inr fun id hid => ⟨?_, ?_⟩
    · refine (h.mem_stale_or_startsUntracked hid).resolve_left fun hmem => ?_
      rw [hstale] at hmem
      cases hmem
    · exact Store.stale_eq_nil_iff.1 hstale id (h.lt_lastRev_of_named hid).1

/-- A state is kept twice, then its first revision is kept again. -/
theorem refused_commit_fails_or_starts_untracked_of_stale :
    let keep (rev : Int) : Command := .keep (.ofState { State.new ⟨"s"⟩ with rev := rev })
    let visits : List Visit :=
      [.call (.commit default [keep 0]), .call (.commit default [keep 1])]
    let r := run 1 visits
    r.ring.conflicts [keep 1] ≠ [] ∧
      r.answer (commit default [keep 1]) = .error (.conflict [⟨"s"⟩]) ∧
      ∃ fault, r.wrapped.answer (commit default [keep 1]) = .error fault := by
  intro keep visits r
  have hconflicts : (run 1 visits).ring.conflicts [keep 1] = [⟨"s"⟩] := by decide +kernel
  have hnamed : (run 1 visits).ring.conflicts [keep 1] ≠ [] := by rw [hconflicts]; simp
  obtain ⟨hanswer, -, hfails⟩ :=
    (refused_commit_fails_or_starts_untracked 1 visits default [keep 1]).2 hnamed
  refine ⟨hnamed, by rw [← hconflicts]; exact hanswer, hfails.resolve_right fun hall => ?_⟩
  have hid : (⟨"s"⟩ : StateId) ∈ (run 1 visits).ring.conflicts [keep 1] := by
    rw [hconflicts]
    exact List.mem_singleton_self _
  obtain ⟨⟨c, hc, huntracked⟩, -⟩ := hall _ hid
  cases hc
  cases huntracked

/-- A reference to a blob is noted in the latest revision of a state, then its first revision is
kept. The cache refuses what the wrapped repository takes. -/
theorem refused_commit_succeeds_past_cache :
    let draft (rev : Int) : Draft := .ofState { State.new ⟨"s"⟩ with rev := rev }
    let visits : List Visit :=
      [.call (.commit default [.keep (draft 0)]), .call (.commit default [.keep (draft 1)])]
    let parts : List Command := [.refer (draft 2) ⟨⟨"d"⟩, 1, false, []⟩ "doc", .keep (draft 1)]
    let r := run 1 visits
    r.answer (commit default parts) = .error (.conflict [⟨"s"⟩]) ∧
      ∃ done, r.wrapped.answer (commit default parts) = .ok done := by
  intro draft visits parts r
  have hok : ((run 1 visits).wrapped.answer (commit default parts)).toBool = true := by
    decide +kernel
  refine ⟨eq_error_of_map (by decide +kernel), ?_⟩
  change ∃ done, (run 1 visits).wrapped.answer (commit default parts) = .ok done
  cases hanswer : (run 1 visits).wrapped.answer (commit default parts) with
  | error fault =>
    rw [hanswer] at hok
    cases hok
  | ok done => exact ⟨done, rfl⟩

/-- Whatever clients did, what the wrapped repository reports as a conflict is one through the cache
as well. If no untracked part comes first, some of the same states are named: all of them exactly if
the ring knows a later revision than expected of all of them, or of none. -/
theorem conflict_through_cache_names_what_ring_knows (capacity : Nat) (visits : List Visit)
    (now : Instant) (parts : List Command) (ids : List StateId)
    (hconflict : (run capacity visits).wrapped.answer (commit now parts) =
      .error (.conflict ids)) :
    let r := run capacity visits
    ∃ named, r.answer (commit now parts) = .error (.conflict named) ∧ named ≠ [] ∧
      (∀ id ∈ named, id ∈ ids ∨ StartsUntracked id parts) ∧
      ((∀ id ∈ trackedIds parts, ¬ StartsUntracked id parts) →
        named.Sublist ids ∧
        (named = ids ↔
          (∀ id ∈ ids, r.ring.knowsLater id (expectedRev id parts) = true) ∨
          ∀ id ∈ ids, r.ring.knowsLater id (expectedRev id parts) = false)) := by
  intro r
  have h : r.Mirrored := mirrored_run capacity visits
  obtain ⟨hids, hne⟩ := h.stale_of_conflict hconflict
  by_cases hnamed : r.ring.conflicts parts = []
  · refine ⟨ids, (h.answer_commit_of_passed hnamed).trans hconflict, hne,
      fun id hid => .inl hid, fun hfirst => ⟨List.Sublist.refl _, ?_⟩⟩
    rw [h.conflicts_eq_filter_stale hfirst, ← hids, List.filter_eq_nil_iff] at hnamed
    exact iff_of_true rfl (.inr fun id hid => Bool.eq_false_iff.2 (hnamed id hid))
  · refine ⟨r.ring.conflicts parts, h.answer_commit_of_refused hnamed, hnamed, fun id hid => ?_,
      fun hfirst => ?_⟩
    · rw [hids]
      exact h.mem_stale_or_startsUntracked hid
    · rw [h.conflicts_eq_filter_stale hfirst, ← hids] at hnamed ⊢
      refine ⟨List.filter_sublist, ?_⟩
      have hsome : ¬ ∀ id ∈ ids, r.ring.knowsLater id (expectedRev id parts) = false :=
        fun hnone => hnamed (List.filter_eq_nil_iff.2 fun id hid => by simp [hnone id hid])
      rw [List.filter_eq_self]
      exact (or_iff_left hsome).symm

/-- The ring knows that both states were kept again. -/
theorem conflict_through_cache_names_what_ring_knows_of_both :
    let keep (id : String) (rev : Int) : Command :=
      .keep (.ofState { State.new ⟨id⟩ with rev := rev })
    let visits : List Visit :=
      [.call (.commit default [keep "a" 0, keep "b" 0]), .direct (.commit default [keep "a" 1]),
        .call (.commit default [keep "b" 2]), .refresh]
    let parts := [keep "a" 1, keep "b" 2]
    let r := run 2 visits
    r.wrapped.answer (commit default parts) = .error (.conflict [⟨"a"⟩, ⟨"b"⟩]) ∧
      r.answer (commit default parts) = .error (.conflict [⟨"a"⟩, ⟨"b"⟩]) := by
  intro keep visits parts r
  have hconflict : (run 2 visits).wrapped.answer (commit default parts) =
      .error (.conflict [⟨"a"⟩, ⟨"b"⟩]) := eq_error_of_map (by decide +kernel)
  obtain ⟨named, hanswer, -, -, hnames⟩ :=
    conflict_through_cache_names_what_ring_knows 2 visits default parts _ hconflict
  have hfirst : ∀ id ∈ trackedIds parts, ¬ StartsUntracked id parts := by
    intro id hid huntracked
    obtain ⟨c, hc, hno⟩ := huntracked
    have hmem : c ∈ parts := List.mem_of_find?_eq_some hc
    simp only [parts, List.mem_cons, List.not_mem_nil, or_false] at hmem
    rcases hmem with rfl | rfl <;> cases hno
  have hknows : ∀ id ∈ ([⟨"a"⟩, ⟨"b"⟩] : List StateId),
      (run 2 visits).ring.knowsLater id (expectedRev id parts) = true := by
    decide +kernel
  obtain rfl : named = [⟨"a"⟩, ⟨"b"⟩] := (hnames hfirst).2.2 (.inl hknows)
  exact ⟨hconflict, hanswer⟩

/-- Of two states that were kept again the ring missed one: the cache names only the other. -/
theorem conflict_through_cache_misses_states_past_ring :
    let keep (id : String) (rev : Int) : Command :=
      .keep (.ofState { State.new ⟨id⟩ with rev := rev })
    let visits : List Visit :=
      [.direct (.commit default [keep "a" 0, keep "b" 0]), .direct (.commit default [keep "a" 1]),
        .call (.commit default [keep "b" 2])]
    let parts := [keep "a" 1, keep "b" 2]
    let r := run 2 visits
    r.wrapped.answer (commit default parts) = .error (.conflict [⟨"a"⟩, ⟨"b"⟩]) ∧
      r.answer (commit default parts) = .error (.conflict [⟨"b"⟩]) := by
  intro keep visits parts r
  exact ⟨eq_error_of_map (by decide +kernel), eq_error_of_map (by decide +kernel)⟩

end Repository

end Workflow
