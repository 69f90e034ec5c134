import Workflow.Proofs.Commit

/-!
# Bundles that are apart

Two bundles that have no state in common do not get into each other's way. If the second asks the
store for nothing, committing them one after the other succeeds exactly if committing both as one
does.
-/

set_option autoImplicit false

namespace Workflow

namespace Command

/-- Whether the store has to answer the command when it is staged. -/
def asks : Command → Bool
  | findState .. | findLabelled .. | fetchBlob .. | deref .. => true
  | _ => false

/-- No state stands in both bundles. -/
def Apart (as bs : List Command) : Prop :=
  ∀ id, (∃ a ∈ as, a.draftId? = some id) → ¬ ∃ b ∈ bs, b.draftId? = some id

variable {as bs : List Command}

theorem validateBundle_append (has : as ≠ []) (hbs : bs ≠ []) :
    validateBundle (as ++ bs) = .ok () ↔
      validateBundle as = .ok () ∧ validateBundle bs = .ok () := by
  have hne : as ++ bs ≠ [] := List.append_ne_nil_of_left_ne_nil has bs
  simp only [validateBundle_eq_ok_iff, ne_eq, has, hbs, hne, not_false_eq_true, true_and,
    List.forall_mem_append]

/-! ### Seen from one state -/

theorem onState_eq_nil {id : StateId} {parts : List Command}
    (h : ¬ ∃ c ∈ parts, c.draftId? = some id) : onState id parts = [] :=
  List.filter_eq_nil_iff.2 fun c hc hworks => h ⟨c, hc, draftId?_of_worksOn hworks⟩

theorem onState_append (id : StateId) (as bs : List Command) :
    onState id (as ++ bs) = onState id as ++ onState id bs :=
  List.filter_append ..

theorem firstDraft?_append (id : StateId) (as bs : List Command) :
    firstDraft? id (as ++ bs) = (firstDraft? id as).or (firstDraft? id bs) := by
  rw [firstDraft?, firstDraft?, List.find?_append]
  cases hfind : as.find? (worksOn id) with
  | none => rfl
  | some c =>
    obtain ⟨-, d, hd, -⟩ := worksOn_iff.1 (List.find?_some hfind)
    rw [Option.some_or, Option.bind_some, hd, Option.some_or]

theorem Apart.view (h : Apart as bs) (id : StateId) :
    (onState id as = [] ∧ onState id (as ++ bs) = onState id bs ∧
        firstDraft? id (as ++ bs) = firstDraft? id bs) ∨
      (onState id bs = [] ∧ onState id (as ++ bs) = onState id as ∧
        firstDraft? id (as ++ bs) = firstDraft? id as) := by
  rw [onState_append, firstDraft?_append]
  by_cases hin : ∃ a ∈ as, a.draftId? = some id
  · have hnone := onState_eq_nil (h id hin)
    rw [hnone, List.append_nil, firstDraft?_eq_none_iff.2 hnone, Option.or_none]
    exact .inr ⟨rfl, rfl, rfl⟩
  · have hnone := onState_eq_nil hin
    rw [hnone, List.nil_append, firstDraft?_eq_none_iff.2 hnone, Option.none_or]
    exact .inl ⟨rfl, rfl, rfl⟩

theorem Apart.trackedIds_append (h : Apart as bs) :
    trackedIds (as ++ bs) = trackedIds as ++ trackedIds bs := by
  have hkeep : (bs.filterMap trackedId?).removeAll (as.filterMap trackedId?) =
      bs.filterMap trackedId? := by
    refine List.filter_eq_self.2 fun id hid => ?_
    obtain ⟨b, hb, htracked⟩ := List.mem_filterMap.1 hid
    have hnotin : id ∉ as.filterMap trackedId? := by
      intro hin
      obtain ⟨a, ha, htracked'⟩ := List.mem_filterMap.1 hin
      exact h id ⟨a, ha, draftId?_of_trackedId? htracked'⟩ ⟨b, hb, draftId?_of_trackedId? htracked⟩
    simpa using hnotin
  rw [trackedIds, List.filterMap_append, List.eraseDups_append, hkeep]
  rfl

theorem onState_ne_nil {id : StateId} {parts : List Command} (h : id ∈ trackedIds parts) :
    onState id parts ≠ [] := by
  obtain ⟨c, hc, htracked⟩ := Store.mem_trackedIds_iff.1 h
  exact List.ne_nil_of_mem (List.mem_filter.2 ⟨hc, worksOn_of_trackedId? htracked⟩)

end Command

namespace Store

open Command

variable {s t : Store} {as bs : List Command}

/-! ### When a bundle succeeds -/

theorem prepares_append (h : Apart as bs) (has : as ≠ []) (hbs : bs ≠ []) :
    s.Prepares (as ++ bs) ↔ s.Prepares as ∧ s.Prepares bs := by
  constructor
  · rintro ⟨hvalid, hanswered, happlied⟩
    obtain ⟨hvalidA, hvalidB⟩ := (validateBundle_append has hbs).1 hvalid
    obtain ⟨hansweredA, hansweredB⟩ := List.forall_mem_append.1 hanswered
    refine ⟨⟨hvalidA, hansweredA, ?_⟩, ⟨hvalidB, hansweredB, ?_⟩⟩
    · intro id first hfirst
      rcases h.view id with ⟨hnone, -⟩ | ⟨-, hparts, hdraft⟩
      · rw [firstDraft?_eq_none_iff.2 hnone] at hfirst
        cases hfirst
      · exact hparts ▸ happlied id first (hdraft.trans hfirst)
    · intro id first hfirst
      rcases h.view id with ⟨-, hparts, hdraft⟩ | ⟨hnone, -⟩
      · exact hparts ▸ happlied id first (hdraft.trans hfirst)
      · rw [firstDraft?_eq_none_iff.2 hnone] at hfirst
        cases hfirst
  · rintro ⟨ha, hb⟩
    refine ⟨(validateBundle_append has hbs).2 ⟨ha.valid, hb.valid⟩,
      List.forall_mem_append.2 ⟨ha.answered, hb.answered⟩, fun id first hfirst => ?_⟩
    rcases h.view id with ⟨-, hparts, hdraft⟩ | ⟨-, hparts, hdraft⟩
    · rw [hparts]
      exact hb.applied id first (hdraft.symm.trans hfirst)
    · rw [hparts]
      exact ha.applied id first (hdraft.symm.trans hfirst)

theorem stale_append (h : Apart as bs) :
    s.stale (as ++ bs) = [] ↔ s.stale as = [] ∧ s.stale bs = [] := by
  have hfirst (id : StateId) (hid : id ∈ trackedIds as) :
      expectedRev id (as ++ bs) = expectedRev id as := by
    rcases h.view id with ⟨hnone, -⟩ | ⟨-, -, hdraft⟩
    · exact absurd hnone (onState_ne_nil hid)
    · rw [expectedRev, hdraft, expectedRev]
  have hsecond (id : StateId) (hid : id ∈ trackedIds bs) :
      expectedRev id (as ++ bs) = expectedRev id bs := by
    rcases h.view id with ⟨-, -, hdraft⟩ | ⟨hnone, -⟩
    · rw [expectedRev, hdraft, expectedRev]
    · exact absurd hnone (onState_ne_nil hid)
  rw [stale_eq_nil_iff, stale_eq_nil_iff, stale_eq_nil_iff, h.trackedIds_append,
    List.forall_mem_append]
  refine and_congr (forall₂_congr fun id hid => ?_) (forall₂_congr fun id hid => ?_)
  · rw [hfirst id hid]
  · rw [hsecond id hid]

/-! ### Bundles that ask for nothing -/

theorem asks_eq (c : Command) :
    c.asks = ["get_state_by_id", "get_state_by_labels", "get_data", "dereference_data"].contains
      c.name := by
  cases c <;> rfl

theorem effect_of_not_asks {c : Command} (h : c.asks = false) (s : Store) (d : Draft) :
    s.effect d c = (c.withDraft d).apply := by
  rw [effect]
  cases happly : (c.withDraft d).apply with
  | error fault => rfl
  | ok after =>
    have hquiet : after.asks = false := by
      rw [asks_eq, name_apply happly, name_withDraft, ← asks_eq, h]
    change s.resolve after = .ok after
    cases after <;> first | rfl | cases hquiet

theorem replay_of_not_asks {parts : List Command} (h : ∀ c ∈ parts, c.asks = false) (s t : Store)
    (d : Draft) : s.replay d parts = t.replay d parts := by
  induction parts generalizing d with
  | nil => rfl
  | cons c rest ih =>
    obtain ⟨hc, hrest⟩ := List.forall_mem_cons.1 h
    rw [replay, replay, effect_of_not_asks hc, effect_of_not_asks hc]
    exact bind_congr fun after => ih hrest _

theorem Prepares.of_not_asks {parts : List Command} (h : s.Prepares parts)
    (hquiet : ∀ c ∈ parts, c.asks = false) (t : Store) : t.Prepares parts := by
  refine ⟨h.valid, fun c hc => ?_, fun id first hfirst => ?_⟩
  · have hc := hquiet c hc
    cases c <;> trivial
  · obtain ⟨final, hfinal⟩ := h.applied id first hfirst
    refine ⟨final, ?_⟩
    rw [← hfinal]
    exact replay_of_not_asks (fun c hc => hquiet c (List.mem_of_mem_filter hc)) t s first

theorem stale_of_commit (hs : s.log.Sound) {now : Instant} {first : Store} {done : List Command}
    (hcommit : s.commit now as = .ok (first, done)) (h : Apart as bs) :
    first.stale bs = s.stale bs := by
  obtain ⟨added, hentries, hids, -⟩ := exists_added_of_commit hs hcommit
  refine List.filter_congr fun id hid => ?_
  have hnotin : id ∉ added.map State.id := by
    rw [hids]
    intro hin
    obtain ⟨a, ha, htracked⟩ := mem_trackedIds_iff.1 hin
    obtain ⟨b, hb, htracked'⟩ := mem_trackedIds_iff.1 hid
    exact h id ⟨a, ha, draftId?_of_trackedId? htracked⟩ ⟨b, hb, draftId?_of_trackedId? htracked'⟩
  rw [hentries, Log.lastRev_append_of_notMem s.log.entries hnotin]

theorem exists_commit_append_iff (hs : s.log.Sound) (h : Apart as bs) (has : as ≠ [])
    (hbs : bs ≠ []) (hquiet : ∀ c ∈ bs, c.asks = false) (now : Instant) :
    (∃ stored done, s.commit now (as ++ bs) = .ok (stored, done)) ↔
      ∃ first doneA second doneB, s.commit now as = .ok (first, doneA) ∧
        first.commit now bs = .ok (second, doneB) := by
  rw [exists_commit_ok_iff hs, prepares_append h has hbs, stale_append h]
  constructor
  · rintro ⟨⟨hprepA, hprepB⟩, hstaleA, hstaleB⟩
    obtain ⟨first, doneA, hfirst⟩ : ∃ stored done, s.commit now as = .ok (stored, done) :=
      (exists_commit_ok_iff hs).2 ⟨hprepA, hstaleA⟩
    have hlater := hprepB.of_not_asks hquiet first
    rw [← stale_of_commit hs hfirst h] at hstaleB
    obtain ⟨second, doneB, hsecond⟩ : ∃ stored done, first.commit now bs = .ok (stored, done) :=
      (exists_commit_ok_iff (sound_of_commit hs hfirst)).2 ⟨hlater, hstaleB⟩
    exact ⟨first, doneA, second, doneB, hfirst, hsecond⟩
  · rintro ⟨first, doneA, second, doneB, hfirst, hsecond⟩
    obtain ⟨hprepA, hstaleA⟩ := (exists_commit_ok_iff hs).1 ⟨first, doneA, hfirst⟩
    obtain ⟨hprepB, hstaleB⟩ :=
      (exists_commit_ok_iff (sound_of_commit hs hfirst)).1 ⟨second, doneB, hsecond⟩
    rw [stale_of_commit hs hfirst h] at hstaleB
    exact ⟨⟨hprepA, hprepB.of_not_asks hquiet s⟩, hstaleA, hstaleB⟩

end Store

end Workflow
