import Workflow.Proofs.Outcome

/-!
# Delays in a bundle

The delays of a bundle wait until all else of it is committed, and then copy what their states are
left with. So it does not matter where among the other parts they stand, and a copy of a tracked
state has the revision that was just committed.
-/

set_option autoImplicit false

namespace Workflow

open Command

/-! ### Copies -/

namespace DelayRequest

variable {r : DelayRequest} {base copy : State} {now dueAt : Instant}
  (h : (copy, dueAt) = r.snapshot base now)

include h

theorem eq_of_snapshot : copy = { base with transition := copy.transition } := by
  obtain ⟨rfl, -⟩ := Prod.mk.inj h
  rfl

theorem isResumed_of_snapshot (hpaused : base.isPaused = true) : copy.isResumed = true := by
  obtain ⟨rfl, -⟩ := Prod.mk.inj h
  simp only [hpaused, if_true]
  exact beq_iff_eq.2 (SortedMap.get?_insert_self ..)

end DelayRequest

/-! ### One request after the other -/

namespace Delays

/-- Puts off what a request asks for, and answers the item. -/
def grant (now : Instant) (d : Delays) (r : DelayRequest) : Delays × Delayed :=
  let (copy, dueAt) := r.snapshot r.draft.current now
  d.push copy dueAt

/-- Puts off what some requests ask for, one after the other; each request gets its item. -/
def grantAll (now : Instant) : Delays → List DelayRequest → Delays × List DelayRequest
  | d, [] => (d, [])
  | d, r :: rest =>
    let (d, item) := d.grant now r
    let (d, rest) := grantAll now d rest
    (d, { r with result := some item } :: rest)

variable (now : Instant) (d : Delays) (r : DelayRequest) (rs : List DelayRequest)

theorem offset_grant : (d.grant now r).2.offset = d.lastOffset + 1 := rfl

theorem lastOffset_grant : (d.grant now r).1.lastOffset = d.lastOffset + 1 := rfl

theorem snapshot_grant :
    ((d.grant now r).2.state, (d.grant now r).2.dueAt) = r.snapshot r.draft.current now := rfl

theorem get?_grant (offset : Int) :
    (d.grant now r).1.items.get? offset =
      if offset = d.lastOffset + 1 then some (d.grant now r).2 else d.items.get? offset :=
  get?_push ..

theorem grantAll_cons :
    d.grantAll now (r :: rs) =
      (((d.grant now r).1.grantAll now rs).1,
        { r with result := some (d.grant now r).2 } :: ((d.grant now r).1.grantAll now rs).2) :=
  rfl

theorem lastOffset_grantAll : (d.grantAll now rs).1.lastOffset = d.lastOffset + rs.length := by
  induction rs generalizing d with
  | nil => exact (Int.add_zero _).symm
  | cons r rest ih =>
    rw [grantAll_cons, ih, lastOffset_grant, List.length_cons]
    omega

theorem length_grantAll : (d.grantAll now rs).2.length = rs.length := by
  induction rs generalizing d with
  | nil => rfl
  | cons r rest ih => rw [grantAll_cons, List.length_cons, ih, List.length_cons]

theorem get?_grantAll_of_not {offset : Int}
    (h : offset ≤ d.lastOffset ∨ d.lastOffset + rs.length < offset) :
    (d.grantAll now rs).1.items.get? offset = d.items.get? offset := by
  induction rs generalizing d with
  | nil => rfl
  | cons r rest ih =>
    rw [List.length_cons] at h
    rw [grantAll_cons, ih, get?_grant, if_neg (by omega)]
    rw [lastOffset_grant]
    omega

theorem getElem?_grantAll {k : Nat} (h : rs[k]? = some r) :
    ∃ item, (d.grantAll now rs).2[k]? = some { r with result := some item } ∧
      item.offset = d.lastOffset + (k + 1) ∧
      (d.grantAll now rs).1.items.get? item.offset = some item ∧
      (item.state, item.dueAt) = r.snapshot r.draft.current now := by
  induction rs generalizing d k with
  | nil => cases h
  | cons first rest ih =>
    rw [grantAll_cons]
    cases k with
    | zero =>
      cases h
      refine ⟨(d.grant now r).2, rfl, offset_grant now d r, ?_, snapshot_grant now d r⟩
      have hkept : (d.grant now r).2.offset ≤ (d.grant now r).1.lastOffset := Int.le_refl _
      rw [get?_grantAll_of_not _ _ _ (.inl hkept), get?_grant, offset_grant, if_pos rfl]
    | succ k =>
      obtain ⟨item, hitem, hoffset, hrest⟩ := ih (d.grant now first).1 h
      refine ⟨item, hitem, ?_, hrest⟩
      rw [hoffset, lastOffset_grant]
      omega

end Delays

namespace Store

/-! ### Delays of a bundle -/

theorem conclude_of_request {drafts : SortedMap StateId Draft} {c : Command} {r : DelayRequest}
    (h : (c.adopt drafts).request? = some r) (now : Instant) (delays : Delays) :
    conclude now drafts delays c =
      ((delays.grant now r).1, .delay { r with result := some (delays.grant now r).2 }) := by
  unfold conclude
  cases hc : c.adopt drafts with
  | delay r' =>
    rw [hc] at h
    cases h
    rfl
  | _ =>
    rw [hc] at h
    cases h

theorem conclude_of_no_request {drafts : SortedMap StateId Draft} {c : Command}
    (h : (c.adopt drafts).request? = none) (now : Instant) (delays : Delays) :
    conclude now drafts delays c = (delays, c.adopt drafts) := by
  unfold conclude
  cases hc : c.adopt drafts with
  | delay r =>
    rw [hc] at h
    cases h
  | _ => rfl

theorem concludeAll_cons (now : Instant) (drafts : SortedMap StateId Draft) (delays : Delays)
    (c : Command) (rest : List Command) :
    concludeAll now drafts delays (c :: rest) =
      ((concludeAll now drafts (conclude now drafts delays c).1 rest).1,
        (conclude now drafts delays c).2 ::
          (concludeAll now drafts (conclude now drafts delays c).1 rest).2) :=
  rfl

theorem concludeAll_eq_grantAll (now : Instant) (drafts : SortedMap StateId Draft)
    (delays : Delays) (work : List Command) :
    ((concludeAll now drafts delays work).1,
        (concludeAll now drafts delays work).2.filterMap request?) =
      delays.grantAll now ((work.map (adopt drafts)).filterMap request?) := by
  induction work generalizing delays with
  | nil => rfl
  | cons c rest ih =>
    rw [concludeAll_cons, List.map_cons]
    cases hrequest : (c.adopt drafts).request? with
    | none =>
      rw [conclude_of_no_request hrequest, List.filterMap_cons_none hrequest,
        List.filterMap_cons_none hrequest]
      exact ih delays
    | some r =>
      rw [conclude_of_request hrequest, List.filterMap_cons_some hrequest, Delays.grantAll_cons,
        ← ih]
      rfl

theorem requests_of_staged {drafts : SortedMap StateId Draft} {parts work : List Command}
    (h : List.Forall₂ (Staged drafts) parts work) :
    (work.map (adopt drafts)).filterMap request? =
      (parts.filterMap request?).map (DelayRequest.adopt drafts) := by
  rw [List.filterMap_map, List.map_filterMap]
  induction h with
  | nil => rfl
  | cons hone _ ih =>
    rw [List.filterMap_cons, List.filterMap_cons, ih, Function.comp_apply, hone.request,
      request?_adopt]

theorem delays_carryOut {s : Store} {parts work : List Command} {st : Staging}
    (h : s.stageAll (.start s.blobs) parts = .ok (st, work)) (now : Instant) :
    ((s.carryOut now st work).2.delays, (s.carryOut now st work).1.filterMap request?) =
      s.delays.grantAll now
        ((parts.filterMap request?).map (DelayRequest.adopt (s.finals now st))) := by
  rw [← requests_of_staged (staged_of_start h now)]
  exact concludeAll_eq_grantAll now (s.finals now st) s.delays work

section

variable {s stored : Store} (hsound : s.log.Sound) {now : Instant} {parts done : List Command}
  (h : s.commit now parts = .ok (stored, done))

include hsound h

theorem item_of_commit {k : Nat} {r : DelayRequest} (hr : (parts.filterMap request?)[k]? = some r) :
    ∃ d item, s.Outcome stored now parts r.draft d ∧
      (done.filterMap request?)[k]? = some { r with draft := d, result := some item } ∧
      item.offset = s.delays.lastOffset + (k + 1) ∧
      stored.delays.items.get? item.offset = some item ∧
      (item.state, item.dueAt) = r.snapshot d.current now := by
  obtain ⟨st, work, hprepare, hdone⟩ := commit_eq_ok_iff.1 h
  obtain ⟨-, hstaged, -⟩ := (prepare_eq_ok_iff hsound).1 hprepare
  have houtcome := outcome_finals hsound hprepare now r.draft
  have hdelays := delays_carryOut hstaged now
  rw [hdone] at houtcome hdelays
  obtain ⟨hstored, hgranted⟩ := Prod.mk.inj hdelays
  have hadopted : ((parts.filterMap request?).map (DelayRequest.adopt (s.finals now st)))[k]? =
      some (r.adopt (s.finals now st)) := by
    rw [List.getElem?_map, hr, Option.map_some]
  obtain ⟨item, hitem, hoffset, hwaits, hcopy⟩ :=
    Delays.getElem?_grantAll now s.delays _ _ hadopted
  rw [← hgranted] at hitem
  rw [← hstored] at hwaits
  exact ⟨_, item, houtcome, hitem, hoffset, hwaits, hcopy⟩

theorem delays_of_commit :
    (done.filterMap request?).length = (parts.filterMap request?).length ∧
      stored.delays.lastOffset = s.delays.lastOffset + (parts.filterMap request?).length ∧
      ∀ offset, offset ≤ s.delays.lastOffset ∨ stored.delays.lastOffset < offset →
        stored.delays.items.get? offset = s.delays.items.get? offset := by
  obtain ⟨st, work, hprepare, hdone⟩ := commit_eq_ok_iff.1 h
  obtain ⟨-, hstaged, -⟩ := (prepare_eq_ok_iff hsound).1 hprepare
  have hdelays := delays_carryOut hstaged now
  rw [hdone] at hdelays
  obtain ⟨hstored, hgranted⟩ := Prod.mk.inj hdelays
  have hlast := Delays.lastOffset_grantAll now s.delays
    ((parts.filterMap request?).map (DelayRequest.adopt (s.finals now st)))
  have hlength := Delays.length_grantAll now s.delays
    ((parts.filterMap request?).map (DelayRequest.adopt (s.finals now st)))
  rw [← hgranted, List.length_map] at hlength
  rw [← hstored, List.length_map] at hlast
  refine ⟨hlength, hlast, fun offset hoffset => ?_⟩
  rw [hlast] at hoffset
  rw [hstored]
  exact Delays.get?_grantAll_of_not now s.delays _ (by rwa [List.length_map])

end

/-! ### Where delays stand -/

end Store

/-- The bundle with its delays elsewhere among the other parts. -/
structure Command.Rearranged (parts moved : List Command) : Prop where
  delays : moved.filter isDelay = parts.filter isDelay
  others : moved.filter (!·.isDelay) = parts.filter (!·.isDelay)

section

variable {parts moved : List Command} (h : Rearranged parts moved)

include h

theorem Command.Rearranged.mem_iff {c : Command} : c ∈ moved ↔ c ∈ parts := by
  have hsplit (l : List Command) :
      c ∈ l ↔ c ∈ l.filter isDelay ∨ c ∈ l.filter (!·.isDelay) := by
    cases hdelay : c.isDelay <;> simp [List.mem_filter, hdelay]
  rw [hsplit moved, hsplit parts, h.delays, h.others]

theorem Command.Rearranged.validate_iff :
    validateBundle moved = .ok () ↔ validateBundle parts = .ok () := by
  simp only [validateBundle_eq_ok_iff, ne_eq, List.eq_nil_iff_forall_not_mem, h.mem_iff]

theorem Command.Rearranged.requests :
    moved.filterMap request? = parts.filterMap request? := by
  have hfilter (l : List Command) :
      l.filterMap request? = (l.filter isDelay).filterMap request? := by
    rw [List.filterMap_filter]
    refine List.filterMap_congr fun c _ => ?_
    split
    next => rfl
    next hdelay => exact request?_of_not_delay (by simpa using hdelay)
  rw [hfilter moved, hfilter parts, h.delays]

end

namespace Store

theorem exists_stageAll_cons_iff {s : Store} {st st' : Staging} {c : Command}
    {rest : List Command} :
    (∃ work, s.stageAll st (c :: rest) = .ok (st', work)) ↔
      ∃ st₁ after, s.stage st c = .ok (st₁, after) ∧
        ∃ work, s.stageAll st₁ rest = .ok (st', work) := by
  simp only [stageAll_cons_eq_ok_iff]
  constructor
  · rintro ⟨_, st₁, after, work, hone, hall, -⟩
    exact ⟨st₁, after, hone, work, hall⟩
  · rintro ⟨st₁, after, hone, work, hall⟩
    exact ⟨_, st₁, after, work, hone, hall, rfl⟩

theorem exists_stageAll_iff_filter {s : Store} {st st' : Staging} {parts : List Command} :
    (∃ work, s.stageAll st parts = .ok (st', work)) ↔
      ∃ work, s.stageAll st (parts.filter (!·.isDelay)) = .ok (st', work) := by
  induction parts generalizing st with
  | nil => exact Iff.rfl
  | cons c rest ih =>
    rw [exists_stageAll_cons_iff]
    cases hdelay : c.isDelay with
    | true =>
      obtain ⟨r, rfl⟩ : ∃ r, c = .delay r := by
        cases c <;> first | exact ⟨_, rfl⟩ | cases hdelay
      rw [List.filter_cons_of_neg (by simp [hdelay]), ← ih, stage_delay]
      simp
    | false =>
      rw [List.filter_cons_of_pos (by simp [hdelay]), exists_stageAll_cons_iff]
      exact exists₂_congr fun _ _ => and_congr_right fun _ => ih

/-- A bundle does the same to the store wherever its delays stand among the other parts. -/
theorem commit_of_rearranged {s stored : Store} (hsound : s.log.Sound) {now : Instant}
    {parts done moved : List Command} (h : s.commit now parts = .ok (stored, done))
    (hmoved : Rearranged parts moved) : ∃ back, s.commit now moved = .ok (stored, back) := by
  obtain ⟨st, work, hprepare, hdone⟩ := commit_eq_ok_iff.1 h
  obtain ⟨hvalid, hstaged, hstale⟩ := (prepare_eq_ok_iff hsound).1 hprepare
  obtain ⟨work', hstaged'⟩ : ∃ work', s.stageAll (.start s.blobs) moved = .ok (st, work') := by
    rw [exists_stageAll_iff_filter, hmoved.others, ← exists_stageAll_iff_filter]
    exact ⟨work, hstaged⟩
  have hstale' : s.stale moved = [] := by
    rw [← conflicts_of_stageAll hstaged' hsound, conflicts_of_stageAll hstaged hsound, hstale]
  have hprepare' : s.prepare moved = .ok (st, work') :=
    (prepare_eq_ok_iff hsound).2 ⟨hmoved.validate_iff.2 hvalid, hstaged', hstale'⟩
  have hdelays : (s.carryOut now st work').2.delays = (s.carryOut now st work).2.delays := by
    have hhere := congrArg Prod.fst (delays_carryOut hstaged now)
    have hthere := congrArg Prod.fst (delays_carryOut hstaged' now)
    rw [hmoved.requests] at hthere
    exact hthere.trans hhere.symm
  have hstored : (s.carryOut now st work').2 = stored := by
    have hsame : (s.carryOut now st work').2 = { (s.carryOut now st work).2 with
        delays := (s.carryOut now st work').2.delays } := rfl
    rw [hsame, hdelays, hdone]
  exact ⟨_, hstored ▸ commit_of_prepare hprepare' now⟩

/-- In every state that a run reaches, the delays of a bundle that commits get the next offsets in
the order in which they stand. Their items are copies of what the bundle leaves their states with,
in the latest revision if the state is tracked; a copy keeps all but the transition, and that of a
paused state is marked as resumed. It does not matter where among the other parts they stand. -/
theorem delays_copy_what_is_left (requests : List Request) (now : Instant)
    (parts done : List Command) (stored : Store)
    (h : (run requests).commit now parts = .ok (stored, done)) :
    let s := run requests
    (done.filterMap request?).length = (parts.filterMap request?).length ∧
    stored.delays.lastOffset = s.delays.lastOffset + (parts.filterMap request?).length ∧
    (∀ offset, offset ≤ s.delays.lastOffset ∨ stored.delays.lastOffset < offset →
      stored.delays.items.get? offset = s.delays.items.get? offset) ∧
    (∀ (k : Nat) (r : DelayRequest), (parts.filterMap request?)[k]? = some r → ∃ d item,
      s.Outcome stored now parts r.draft d ∧
      (done.filterMap request?)[k]? = some { r with draft := d, result := some item } ∧
      item.offset = s.delays.lastOffset + (k + 1) ∧
      stored.delays.items.get? item.offset = some item ∧
      (item.state, item.dueAt) = r.snapshot d.current now ∧
      item.state = { d.current with transition := item.state.transition } ∧
      (d.current.isPaused = true → item.state.isResumed = true)) ∧
    ∀ moved, Rearranged parts moved → ∃ back, s.commit now moved = .ok (stored, back) := by
  intro s
  have hsound : s.log.Sound := sound_run requests
  obtain ⟨hlength, hlast, hothers⟩ := delays_of_commit hsound h
  refine ⟨hlength, hlast, hothers, fun k r hr => ?_, fun moved hmoved =>
    commit_of_rearranged hsound h hmoved⟩
  obtain ⟨d, item, houtcome, hitem, hoffset, hwaits, hcopy⟩ := item_of_commit hsound h hr
  refine ⟨d, item, houtcome, hitem, hoffset, hwaits, hcopy, ?_, ?_⟩
  · exact DelayRequest.eq_of_snapshot hcopy
  · exact DelayRequest.isResumed_of_snapshot hcopy

/-- A state is paused behind its delay. -/
theorem delays_copy_what_is_left_of_pause :
    let a : Draft := .ofState (.new ⟨"a"⟩)
    let later : Command := .delay ⟨a, none, .ofSecs 50, none, true, ∅, none⟩
    let pause : Command := .pause a none ∅
    ∃ stored done, (run []).commit default [later, pause] = .ok (stored, done) ∧
      (∃ item, stored.delays.items.get? 1 = some item ∧ item.state.rev = 1 ∧
        item.state.isResumed = true) ∧
      ∃ back, (run []).commit default [pause, later] = .ok (stored, back) := by
  intro a later pause
  have hrun : ((run []).commit default [later, pause]).map (fun x =>
      (x.1.log.latest? ⟨"a"⟩).map fun e => (e.rev, e.isPaused)) = .ok (some (1, true)) := by
    simp only [later, pause, a]
    rfl
  obtain ⟨⟨stored, done⟩, hcommit, hlatest⟩ := Fault.map_eq_ok_iff.1 hrun
  obtain ⟨e, he, hpaused⟩ := Option.map_eq_some_iff.1 hlatest
  obtain ⟨hrev, hpaused⟩ := Prod.mk.inj hpaused
  obtain ⟨-, -, -, hitems, hmoved⟩ :=
    delays_copy_what_is_left [] default [later, pause] done stored hcommit
  obtain ⟨d, item, houtcome, -, hoffset, hwaits, -, hstate, hresumed⟩ := hitems 0 _ rfl
  obtain ⟨f, hf, -, rfl⟩ := houtcome.of_tracked (by simp only [later, pause, a]; decide)
  cases he.symm.trans hf
  have hfirst : item.offset = 1 := hoffset.trans rfl
  refine ⟨stored, done, hcommit, ⟨item, hfirst ▸ hwaits, ?_, hresumed hpaused⟩, ?_⟩
  · rw [hstate, hrev]
  · exact hmoved [pause, later] ⟨rfl, rfl⟩

end Store

end Workflow
