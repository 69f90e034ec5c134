import Mathlib.Logic.Basic
import Workflow.Proofs.Effect
import Workflow.Proofs.Reference
import Workflow.Store.Commit

/-!
# Staging state by state

Staging goes through the parts of a bundle in order and keeps one draft for each state. Seen from
one state, only the parts that work on it matter: the first of them gives the draft, and the local
effects of all of them are replayed on it (`Store.replay`). A delay works on no state, it waits for
the commit.
-/

set_option autoImplicit false

namespace Workflow

/-- The request with the draft that is prepared for its state, if there is one. -/
def DelayRequest.adopt (drafts : SortedMap StateId Draft) (r : DelayRequest) : DelayRequest :=
  { r with draft := (drafts.get? r.draft.id).getD r.draft }

namespace Command

/-- Whether the command is a delay. -/
def isDelay : Command → Bool
  | delay _ => true
  | _ => false

/-- Whether a part of a bundle works on a state: it has a draft of the state and is no delay. -/
def worksOn (id : StateId) (c : Command) : Bool := !c.isDelay && c.draft?.any (·.id = id)

/-- The parts that work on a state, in order. -/
def onState (id : StateId) (parts : List Command) : List Command := parts.filter (worksOn id)

/-- The draft of the first part that works on a state. -/
def firstDraft? (id : StateId) (parts : List Command) : Option Draft :=
  (parts.find? (worksOn id)).bind draft?

/-- The state that a command acts on. -/
def draftId? (c : Command) : Option StateId := c.draft?.map Draft.id

/-- The state of a tracked command. -/
def trackedId? (c : Command) : Option StateId := if c.isTracked then c.draft?.map Draft.id else none

/-- The states with a tracked part, each once, in the order of their first tracked part. -/
def trackedIds (parts : List Command) : List StateId := (parts.filterMap trackedId?).eraseDups

theorem eraseDups_filter_cons (ids : List StateId) {seen more : List StateId} {id : StateId}
    (hmore : ∀ other, other ∈ more ↔ other ∈ seen ∨ other = id) :
    (id :: ids.filter (· ∉ seen)).eraseDups = id :: (ids.filter (· ∉ more)).eraseDups := by
  have hfilter : ids.filter (· ∉ more) = (ids.filter (· ∉ seen)).filter (! · == id) := by
    rw [List.filter_filter]
    congr 1
    funext other
    simp [hmore, Bool.and_comm, beq_eq_decide]
  rw [List.eraseDups_cons, hfilter]

theorem draft?_withDraft {c : Command} {d : Draft} (h : c.draft? = some d) (e : Draft) :
    (c.withDraft e).draft? = some e := by
  cases c <;> first | rfl | cases h

theorem withDraft_of_draft? {c : Command} {d : Draft} (h : c.draft? = some d) :
    c.withDraft d = c := by
  cases c <;> cases h <;> rfl

theorem isTracked_withDraft (c : Command) (e : Draft) :
    (c.withDraft e).isTracked = c.isTracked := by
  cases c <;> rfl

theorem worksOn_iff {id : StateId} {c : Command} :
    c.worksOn id = true ↔ c.isDelay = false ∧ ∃ d, c.draft? = some d ∧ d.id = id := by
  unfold worksOn
  cases c.draft? <;> simp

theorem isDelay_withDraft (c : Command) (e : Draft) : (c.withDraft e).isDelay = c.isDelay := by
  cases c <;> rfl

theorem name_withDraft (c : Command) (e : Draft) : (c.withDraft e).name = c.name := by
  cases c <;> rfl

theorem isDelay_eq (c : Command) : c.isDelay = (c.name == "delay") := by
  cases c <;> rfl

theorem isTracked_eq (c : Command) :
    c.isTracked = ["transit", "pause", "resume", "end", "commit_state_ctx"].contains c.name := by
  cases c <;> rfl

theorem isDelay_or_of_idle {c : Command} (h : ∀ id, c.worksOn id = false) :
    c.isDelay = true ∨ c.draft? = none := by
  cases hd : c.draft? with
  | none => exact .inr rfl
  | some d =>
    have hid := h d.id
    simp only [worksOn, hd, Option.any_some, decide_true, Bool.and_true] at hid
    exact .inl (by simpa using hid)

theorem adopt_eq {c : Command} {d : Draft} (h : c.draft? = some d)
    (drafts : SortedMap StateId Draft) :
    c.adopt drafts = c.withDraft ((drafts.get? d.id).getD d) := by
  unfold adopt
  rw [h]
  cases hp : drafts.get? d.id with
  | none => simp only [hp, Option.getD_none, withDraft_of_draft? h]
  | some prepared => simp only [hp, Option.getD_some]

theorem adopt_delay (drafts : SortedMap StateId Draft) (r : DelayRequest) :
    (delay r).adopt drafts = delay (r.adopt drafts) :=
  adopt_eq (c := .delay r) rfl drafts

theorem adopt_of_no_draft {c : Command} (h : c.draft? = none)
    (drafts : SortedMap StateId Draft) : c.adopt drafts = c := by
  unfold adopt
  rw [h]

theorem name_adopt (drafts : SortedMap StateId Draft) (c : Command) :
    (c.adopt drafts).name = c.name := by
  cases hd : c.draft? with
  | none => rw [adopt_of_no_draft hd]
  | some d => rw [adopt_eq hd, name_withDraft]

theorem worksOn_of_ne {c : Command} {d : Draft} (hd : c.draft? = some d) {id : StateId}
    (h : id ≠ d.id) : c.worksOn id = false := by
  simp only [worksOn, hd, Option.any_some, decide_eq_false (Ne.symm h), Bool.and_false]

theorem exists_draft_of_not_idle {c : Command} (h : ¬ ∀ id, c.worksOn id = false) :
    ∃ d, c.draft? = some d ∧ c.isDelay = false := by
  simp only [not_forall, Bool.not_eq_false] at h
  obtain ⟨id, hworks⟩ := h
  obtain ⟨hdelay, d, hd, -⟩ := worksOn_iff.1 hworks
  exact ⟨d, hd, hdelay⟩

theorem worksOn_of_trackedId? {id : StateId} {c : Command} (h : c.trackedId? = some id) :
    c.worksOn id = true := by
  unfold trackedId? at h
  split at h
  next htracked =>
    obtain ⟨d, hd, hid⟩ := Option.map_eq_some_iff.1 h
    refine worksOn_iff.2 ⟨?_, d, hd, hid⟩
    cases c <;> first | rfl | cases htracked
  next => cases h

theorem firstDraft?_eq_none_iff {id : StateId} {parts : List Command} :
    firstDraft? id parts = none ↔ onState id parts = [] := by
  rw [firstDraft?, onState, List.filter_eq_nil_iff, Option.bind_eq_none_iff]
  constructor
  · intro h
    have hnone : parts.find? (worksOn id) = none := by
      rw [Option.eq_none_iff_forall_ne_some]
      intro c hc
      obtain ⟨-, d, hd, -⟩ := worksOn_iff.1 (List.find?_some hc)
      rw [h c hc] at hd
      cases hd
    exact fun c hc => List.find?_eq_none.1 hnone c hc
  · intro h c hc
    exact absurd (List.find?_some hc) (h c (List.mem_of_find?_eq_some hc))

theorem id_of_firstDraft? {id : StateId} {parts : List Command} {first : Draft}
    (h : firstDraft? id parts = some first) : first.id = id := by
  obtain ⟨c, hfind, hc⟩ := Option.bind_eq_some_iff.1 h
  obtain ⟨-, own, hown, hid⟩ := worksOn_iff.1 (List.find?_some hfind)
  rw [hown] at hc
  cases hc
  exact hid

theorem draftId?_of_worksOn {id : StateId} {c : Command} (h : c.worksOn id = true) :
    c.draftId? = some id := by
  obtain ⟨-, d, hd, hid⟩ := worksOn_iff.1 h
  rw [draftId?, hd, Option.map_some, hid]

theorem draftId?_of_trackedId? {id : StateId} {c : Command} (h : c.trackedId? = some id) :
    c.draftId? = some id := draftId?_of_worksOn (worksOn_of_trackedId? h)

/-! ### Local effects -/

theorem eq_of_applyStack {carrier stacked : Draft} {note : String} {after : Command}
    (h : applyStack carrier stacked note = .ok after) :
    ∃ text, after = stack (carrier.annotate note text) stacked note := by
  unfold applyStack at h
  split at h
  · cases h
  · cases h
    exact ⟨_, rfl⟩

theorem eq_of_applyUnstack {carrier : Draft} {note : String} {after : Command}
    (h : applyUnstack carrier note = .ok after) :
    ∃ stacked, after = unstack
      (carrier.update fun s => { s with annotations := s.annotations.erase note }) note
      (some stacked) := by
  unfold applyUnstack at h
  split at h
  · cases h
  · split at h
    · cases h
    · split at h
      · cases h
      next stacked _ =>
        cases h
        exact ⟨stacked, rfl⟩

theorem eq_of_applyRefer {draft : Draft} {blob : Blob} {note : String} {after : Command}
    (h : applyRefer draft blob note = .ok after) :
    ∃ text, after = refer (draft.annotate note text) blob note := by
  unfold applyRefer at h
  split at h
  · cases h
  · cases h
    exact ⟨_, rfl⟩

theorem eq_of_applyDeref {draft : Draft} {note : String} {after : Command}
    (h : applyDeref draft note = .ok after) : ∃ blob, after = deref draft note (some blob) := by
  unfold applyDeref at h
  split at h
  · cases h
  · obtain ⟨⟨id, rev⟩, -, hafter⟩ := Fault.bind_eq_ok_iff.1 h
    cases hafter
    exact ⟨_, rfl⟩

theorem name_apply {c after : Command} (h : c.apply = .ok after) : after.name = c.name := by
  cases c with
  | transit d target annotations =>
    simp only [apply] at h
    split at h
    · cases h
    · cases h
      rfl
  | stack carrier stacked note =>
    obtain ⟨text, rfl⟩ := eq_of_applyStack h
    rfl
  | unstack carrier note result =>
    obtain ⟨stacked, rfl⟩ := eq_of_applyUnstack h
    rfl
  | refer d blob note =>
    obtain ⟨text, rfl⟩ := eq_of_applyRefer h
    rfl
  | deref d note blob =>
    obtain ⟨found, rfl⟩ := eq_of_applyDeref h
    rfl
  | _ =>
    cases h
    rfl

theorem apply_keeps {c after : Command} (h : c.apply = .ok after) :
    after.isTracked = c.isTracked ∧ ∀ d, c.draft? = some d →
      ∃ e, after.draft? = some e ∧ e.id = d.id ∧ e.committed = d.committed := by
  have hsame {e d : Draft} (hid : e.id = d.id) (hc : e.committed = d.committed) :
      ∀ d', some d = some d' →
        ∃ e', some e = some e' ∧ e'.id = d'.id ∧ e'.committed = d'.committed := by
    intro d' hd
    cases hd
    exact ⟨e, rfl, hid, hc⟩
  cases c with
  | transit d target annotations =>
    simp only [apply] at h
    split at h
    · cases h
    · cases h
      exact ⟨rfl, hsame rfl rfl⟩
  | stack carrier stacked note =>
    obtain ⟨text, rfl⟩ := eq_of_applyStack h
    exact ⟨rfl, hsame rfl rfl⟩
  | unstack carrier note result =>
    obtain ⟨stacked, rfl⟩ := eq_of_applyUnstack h
    exact ⟨rfl, hsame rfl rfl⟩
  | refer d blob note =>
    obtain ⟨text, rfl⟩ := eq_of_applyRefer h
    exact ⟨rfl, hsame rfl rfl⟩
  | deref d note blob =>
    obtain ⟨found, rfl⟩ := eq_of_applyDeref h
    exact ⟨rfl, hsame rfl rfl⟩
  | _ =>
    cases h
    exact ⟨rfl, fun d hd => by cases hd <;> exact ⟨_, rfl, rfl, rfl⟩⟩

end Command

namespace Store

open Command

/-- The local effect of a part on the draft of its state. A reference is followed in the store. -/
def effect (s : Store) (d : Draft) (c : Command) : Except Fault Command := do
  let c ← (c.withDraft d).apply
  s.resolve c

/-- The draft after the local effects of some parts, one after the other. -/
def replay (s : Store) : Draft → List Command → Except Fault Draft
  | d, [] => .ok d
  | d, c :: rest => do
    let c ← s.effect d c
    s.replay (c.draft?.getD d) rest

/-- Whether the store has what a part looks up. -/
def answers (s : Store) : Command → Prop
  | .findState id rev _ => ∃ d, s.log.find id rev = .ok d
  | .findLabelled labels _ => ∃ d, s.log.findLabelled labels = .ok d
  | .fetchBlob blob => ∃ b, s.blobs.fetch blob.id blob.rev = .ok b
  | _ => True

theorem answers_of_draft? {s : Store} {c : Command} {d : Draft} (hd : c.draft? = some d) :
    s.answers c := by
  cases c <;> trivial

theorem resolve_keeps {s : Store} {c after : Command} (h : s.resolve c = .ok after) :
    after.isTracked = c.isTracked ∧ after.draft? = c.draft? := by
  unfold resolve at h
  split at h
  · obtain ⟨found, -, hafter⟩ := Fault.bind_eq_ok_iff.1 h
    cases hafter
    exact ⟨rfl, rfl⟩
  · cases h
    exact ⟨rfl, rfl⟩

theorem name_resolve {s : Store} {c after : Command} (h : s.resolve c = .ok after) :
    after.name = c.name := by
  unfold resolve at h
  split at h
  · obtain ⟨found, -, hafter⟩ := Fault.bind_eq_ok_iff.1 h
    cases hafter
    rfl
  · cases h
    rfl

theorem name_effect {s : Store} {d : Draft} {c after : Command} (h : s.effect d c = .ok after) :
    after.name = c.name := by
  obtain ⟨applied, happly, hresolve⟩ := Fault.bind_eq_ok_iff.1 h
  rw [name_resolve hresolve, name_apply happly, name_withDraft]

theorem effect_keeps {s : Store} {d own : Draft} {c after : Command} (hown : c.draft? = some own)
    (h : s.effect d c = .ok after) :
    after.isTracked = c.isTracked ∧
      ∃ e, after.draft? = some e ∧ e.id = d.id ∧ e.committed = d.committed := by
  obtain ⟨applied, happly, hresolve⟩ := Fault.bind_eq_ok_iff.1 h
  obtain ⟨htracked, hdraft⟩ := resolve_keeps hresolve
  obtain ⟨htracked', hdraft'⟩ := apply_keeps happly
  rw [htracked, htracked', isTracked_withDraft, hdraft]
  exact ⟨rfl, hdraft' d (draft?_withDraft hown d)⟩

theorem replay_cons_ok_iff {s : Store} {d final : Draft} {c : Command} {rest : List Command} :
    s.replay d (c :: rest) = .ok final ↔
      ∃ after, s.effect d c = .ok after ∧ s.replay (after.draft?.getD d) rest = .ok final :=
  Fault.bind_eq_ok_iff

theorem replay_keeps {s : Store} {id : StateId} {parts : List Command} {d final : Draft}
    (h : s.replay d (onState id parts) = .ok final) :
    final.id = d.id ∧ final.committed = d.committed := by
  unfold onState at h
  induction parts generalizing d with
  | nil =>
    cases h
    exact ⟨rfl, rfl⟩
  | cons c rest ih =>
    rw [List.filter_cons] at h
    split at h
    next hworks =>
      obtain ⟨-, own, hown, -⟩ := worksOn_iff.1 hworks
      obtain ⟨after, heffect, hrest⟩ := replay_cons_ok_iff.1 h
      obtain ⟨-, e, he, hid, hc⟩ := effect_keeps hown heffect
      rw [he, Option.getD_some] at hrest
      obtain ⟨hid', hc'⟩ := ih hrest
      exact ⟨hid'.trans hid, hc'.trans hc⟩
    next => exact ih h

/-! ### Faults

Only the check for conflicts reports a conflict. -/

theorem isConflict_of_find {l : Log} {id : StateId} {rev : Int} {fault : Fault}
    (h : l.find id rev = .error fault) : fault.isConflict = false := by
  unfold Log.find at h
  cases hfound : (if rev = 0 then l.latest? id else (l.get? rev).filter (·.id = id)) with
  | none =>
    simp only [hfound] at h
    cases h
    rfl
  | some e =>
    simp only [hfound] at h
    cases h

theorem isConflict_of_findLabelled {l : Log} {labels : Notes} {fault : Fault}
    (h : l.findLabelled labels = .error fault) : fault.isConflict = false := by
  unfold Log.findLabelled at h
  split at h
  · cases h
  · cases h
    rfl

theorem isConflict_of_fetch {b : Blobs} {id : BlobId} {rev : Int} {fault : Fault}
    (h : b.fetch id rev = .error fault) : fault.isConflict = false := by
  unfold Blobs.fetch at h
  split at h
  · cases h
    rfl
  · simp only at h
    split at h
    · cases h
    · cases h
      rfl

theorem isConflict_of_parse {raw : String} {fault : Fault}
    (h : Reference.parse raw = .error fault) : fault.isConflict = false := by
  obtain ⟨why, rfl⟩ := Reference.eq_of_parse_eq_error h
  rfl

theorem isConflict_of_apply {c : Command} {fault : Fault} (h : c.apply = .error fault) :
    fault.isConflict = false := by
  cases c with
  | transit d target annotations =>
    simp only [apply] at h
    split at h
    · cases h
      rfl
    · cases h
  | stack carrier stacked note =>
    simp only [apply, applyStack] at h
    split at h
    · cases h
      rfl
    · cases h
  | unstack carrier note result =>
    simp only [apply, applyUnstack] at h
    split at h
    · cases h
      rfl
    · split at h
      · cases h
        rfl
      · split at h
        · cases h
          rfl
        · cases h
  | refer d blob note =>
    simp only [apply, applyRefer] at h
    split at h
    · cases h
      rfl
    · cases h
  | deref d note blob =>
    simp only [apply, applyDeref] at h
    split at h
    · cases h
      rfl
    · rcases Fault.bind_eq_error_iff.1 h with hparse | ⟨reference, -, hok⟩
      · exact isConflict_of_parse hparse
      · cases hok
  | _ => cases h

theorem isConflict_of_effect {s : Store} {d : Draft} {c : Command} {fault : Fault}
    (h : s.effect d c = .error fault) : fault.isConflict = false := by
  rcases Fault.bind_eq_error_iff.1 h with happly | ⟨after, -, hresolve⟩
  · exact isConflict_of_apply happly
  · unfold resolve at hresolve
    split at hresolve
    · rcases Fault.bind_eq_error_iff.1 hresolve with hfetch | ⟨found, -, hok⟩
      · exact isConflict_of_fetch hfetch
      · cases hok
    · cases hresolve

/-! ### One part -/

theorem stage_of_works {s : Store} {st : Staging} {c : Command} {d : Draft}
    (hd : c.draft? = some d) (hdelay : c.isDelay = false) :
    s.stage st c =
      (s.effect ((st.drafts.get? d.id).getD d) c >>= fun after =>
        .ok (st.record d.id after, after)) := by
  have hstage : s.stage st c = s.stageDraft st c d.id := by
    cases c <;> first | (cases hd; rfl) | cases hd
  have hadopt := adopt_eq hd st.drafts
  have hkeep : (c.adopt st.drafts).isDelay = false := by
    rw [hadopt, isDelay_withDraft, hdelay]
  rw [hstage, effect, ← hadopt, stageDraft]
  generalize c.adopt st.drafts = w at hkeep
  have hflat : (do
      let c ← w.apply
      let c ← s.resolve c
      .ok (st.record d.id c, c)) =
      (w.apply >>= s.resolve) >>= fun after => .ok (st.record d.id after, after) := by
    cases w.apply <;> rfl
  cases w <;> first | exact hflat | cases hkeep

theorem stage_delay (s : Store) (st : Staging) (r : DelayRequest) :
    s.stage st (.delay r) = .ok (st, .delay (r.adopt st.drafts)) := by
  change s.stageDraft st (.delay r) r.draft.id = _
  rw [stageDraft, adopt_delay]

private theorem stage_of_lookup {α : Type} {s : Store} {st : Staging} {c : Command}
    {x : Except Fault α} {f : α → Command}
    (hstage : s.stage st c = x >>= fun found => .ok (st, f found))
    (hanswers : s.answers c ↔ ∃ found, x = .ok found)
    (hno : ∀ {fault}, x = .error fault → fault.isConflict = false) :
    (∃ fault, s.stage st c = .error fault ∧ ¬ s.answers c ∧ fault.isConflict = false) ∨
      ∃ st' after, s.stage st c = .ok (st', after) ∧ s.answers c ∧
        st'.drafts = st.drafts ∧ st'.tracked = st.tracked := by
  rw [hstage, hanswers]
  cases hx : x with
  | error fault => exact .inl ⟨fault, rfl, by simp, hno hx⟩
  | ok found => exact .inr ⟨st, f found, rfl, ⟨found, rfl⟩, rfl, rfl⟩

theorem stage_of_idle (s : Store) (st : Staging) {c : Command}
    (hidle : ∀ id, c.worksOn id = false) :
    (∃ fault, s.stage st c = .error fault ∧ ¬ s.answers c ∧ fault.isConflict = false) ∨
      ∃ st' after, s.stage st c = .ok (st', after) ∧ s.answers c ∧
        st'.drafts = st.drafts ∧ st'.tracked = st.tracked := by
  rcases isDelay_or_of_idle hidle with hdelay | hnone
  · cases c with
    | delay r => exact .inr ⟨st, _, stage_delay s st r, trivial, rfl, rfl⟩
    | _ => cases hdelay
  · cases c with
    | findState id rev result => exact stage_of_lookup rfl Iff.rfl isConflict_of_find
    | findLabelled labels result => exact stage_of_lookup rfl Iff.rfl isConflict_of_findLabelled
    | fetchBlob blob => exact stage_of_lookup rfl Iff.rfl isConflict_of_fetch
    | storeBlob blob => exact .inr ⟨_, _, rfl, trivial, rfl, rfl⟩
    | noop | listStates _ _ | listDelayed _ _ | bundle _ =>
      exact .inr ⟨st, _, rfl, trivial, rfl, rfl⟩
    | _ => cases hnone

theorem cases_of_idle {s : Store} {st st' : Staging} {c after : Command}
    (hidle : ∀ id, c.worksOn id = false) (h : s.stage st c = .ok (st', after)) :
    (∃ r, c = .delay r ∧ after = .delay (r.adopt st.drafts)) ∨
      c.draft? = none ∧ after.draft? = none ∧ after.name = c.name := by
  rcases isDelay_or_of_idle hidle with hdelay | hnone
  · cases c with
    | delay r =>
      rw [stage_delay] at h
      cases h
      exact .inl ⟨r, rfl, rfl⟩
    | _ => cases hdelay
  · cases c with
    | findState id rev result | findLabelled labels result | fetchBlob blob =>
      obtain ⟨found, -, hok⟩ := Fault.bind_eq_ok_iff.1 h
      cases hok
      exact .inr ⟨rfl, rfl, rfl⟩
    | storeBlob blob | noop | listStates _ _ | listDelayed _ _ | bundle _ =>
      cases h
      exact .inr ⟨rfl, rfl, rfl⟩
    | _ => cases hnone

/-- What staging a part does: it prepares no draft if the part works on no state, and else the
draft after the effect of the part. -/
theorem cases_of_stage {s : Store} {st st' : Staging} {c after : Command}
    (h : s.stage st c = .ok (st', after)) :
    s.answers c ∧
      (((∀ id, c.worksOn id = false) ∧ st'.drafts = st.drafts ∧ st'.tracked = st.tracked) ∨
        ∃ d, c.draft? = some d ∧ c.isDelay = false ∧
          s.effect ((st.drafts.get? d.id).getD d) c = .ok after ∧ st' = st.record d.id after) := by
  by_cases hidle : ∀ id, c.worksOn id = false
  · rcases stage_of_idle s st hidle with ⟨fault, herror, -⟩ | ⟨st₁, after₁, hok, hanswer, hkept⟩
    · rw [herror] at h
      cases h
    · rw [hok] at h
      cases h
      exact ⟨hanswer, .inl ⟨hidle, hkept⟩⟩
  · obtain ⟨d, hd, hdelay⟩ := exists_draft_of_not_idle hidle
    rw [stage_of_works hd hdelay] at h
    obtain ⟨_, heffect, hst⟩ := Fault.bind_eq_ok_iff.1 h
    cases hst
    exact ⟨answers_of_draft? hd, .inr ⟨d, hd, hdelay, heffect, rfl⟩⟩

theorem isConflict_of_stage {s : Store} {st : Staging} {c : Command} {fault : Fault}
    (h : s.stage st c = .error fault) : fault.isConflict = false := by
  by_cases hidle : ∀ id, c.worksOn id = false
  · rcases stage_of_idle s st hidle with ⟨other, herror, -, hno⟩ | ⟨st', after, hok, -⟩
    · rw [herror] at h
      cases h
      exact hno
    · rw [hok] at h
      cases h
  · obtain ⟨d, hd, hdelay⟩ := exists_draft_of_not_idle hidle
    rw [stage_of_works hd hdelay] at h
    rcases Fault.bind_eq_error_iff.1 h with heffect | ⟨after, -, hok⟩
    · exact isConflict_of_effect heffect
    · cases hok

/-! ### All parts -/

/-- The draft of a state once further parts are staged: what replaying them gives, starting from
the draft prepared for the state or else from that of the first of them that works on it. -/
def draftAfter (s : Store) (st : Staging) (parts : List Command) (id : StateId) :
    Except Fault (Option Draft) :=
  match (st.drafts.get? id).or (firstDraft? id parts) with
  | none => .ok none
  | some d => (s.replay d (onState id parts)).map some

theorem draftAfter_nil (s : Store) (st : Staging) (id : StateId) :
    s.draftAfter st [] id = .ok (st.drafts.get? id) := by
  unfold draftAfter
  cases hp : st.drafts.get? id <;> rfl

theorem draftAfter_cons_of_idle {s : Store} {st st' : Staging} {id : StateId} {c : Command}
    (rest : List Command) (hidle : c.worksOn id = false)
    (hdrafts : st'.drafts.get? id = st.drafts.get? id) :
    s.draftAfter st (c :: rest) id = s.draftAfter st' rest id := by
  simp only [draftAfter, firstDraft?, onState, List.find?_cons, List.filter_cons, hidle, hdrafts,
    Bool.false_eq_true, if_false]

theorem draftAfter_cons_of_works {s : Store} {st : Staging} {c : Command} {d : Draft}
    (rest : List Command) (hd : c.draft? = some d) (hdelay : c.isDelay = false) :
    s.draftAfter st (c :: rest) d.id =
      (s.effect ((st.drafts.get? d.id).getD d) c >>= fun after =>
        s.draftAfter (st.record d.id after) rest d.id) := by
  have hworks : c.worksOn d.id = true := worksOn_iff.2 ⟨hdelay, d, hd, rfl⟩
  have hstart : (st.drafts.get? d.id).or (firstDraft? d.id (c :: rest)) =
      some ((st.drafts.get? d.id).getD d) := by
    rw [firstDraft?, List.find?_cons, hworks]
    cases hp : st.drafts.get? d.id with
    | none => simp [hd]
    | some prepared => simp
  have hparts : onState d.id (c :: rest) = c :: onState d.id rest := by
    rw [onState, List.filter_cons, if_pos hworks, onState]
  rw [draftAfter, hstart, hparts]
  generalize (st.drafts.get? d.id).getD d = shared
  change (s.effect shared c >>= fun after => s.replay _ _).map some = _
  cases heffect : s.effect shared c with
  | error fault => rfl
  | ok after =>
    obtain ⟨-, e, he, -⟩ := effect_keeps hd heffect
    change (s.replay (after.draft?.getD shared) _).map some = s.draftAfter _ rest d.id
    have hrecord : (st.record d.id after).drafts.get? d.id = some e := by
      simp only [Staging.record, he, SortedMap.get?_insert_self]
    rw [draftAfter, hrecord, he, Option.getD_some, Option.some_or]

theorem get?_record_of_ne {st : Staging} {id other : StateId} (h : other ≠ id) (c : Command) :
    (st.record id c).drafts.get? other = st.drafts.get? other := by
  unfold Staging.record
  cases c.draft? with
  | none => rfl
  | some d => exact SortedMap.get?_insert_of_ne _ _ h

theorem stage_ok {s : Store} {st st' : Staging} {c after : Command} (rest : List Command)
    (h : s.stage st c = .ok (st', after)) :
    s.answers c ∧ ∀ id, s.draftAfter st (c :: rest) id = s.draftAfter st' rest id := by
  obtain ⟨hanswer, ⟨hidle, hdrafts, -⟩ | ⟨d, hd, hdelay, heffect, rfl⟩⟩ := cases_of_stage h
  · exact ⟨hanswer, fun id => draftAfter_cons_of_idle rest (hidle id) (by rw [hdrafts])⟩
  · refine ⟨hanswer, fun id => ?_⟩
    by_cases hid : id = d.id
    · subst hid
      rw [draftAfter_cons_of_works rest hd hdelay, heffect]
      rfl
    · exact draftAfter_cons_of_idle rest (worksOn_of_ne hd hid) (get?_record_of_ne hid after)

theorem exists_stage {s : Store} {st : Staging} {c : Command} {rest : List Command}
    (hanswer : s.answers c) (hviews : ∀ id, ∃ o, s.draftAfter st (c :: rest) id = .ok o) :
    ∃ st' after, s.stage st c = .ok (st', after) := by
  by_cases hidle : ∀ id, c.worksOn id = false
  · rcases stage_of_idle s st hidle with ⟨fault, -, hno, -⟩ | ⟨st', after, hok, -⟩
    · exact absurd hanswer hno
    · exact ⟨st', after, hok⟩
  · obtain ⟨d, hd, hdelay⟩ := exists_draft_of_not_idle hidle
    obtain ⟨o, ho⟩ := hviews d.id
    rw [draftAfter_cons_of_works rest hd hdelay] at ho
    obtain ⟨after, heffect, -⟩ := Fault.bind_eq_ok_iff.1 ho
    rw [stage_of_works hd hdelay, heffect]
    exact ⟨_, _, rfl⟩

theorem stageAll_cons_eq_ok_iff {s : Store} {st st' : Staging} {c : Command}
    {rest work : List Command} :
    s.stageAll st (c :: rest) = .ok (st', work) ↔
      ∃ st₁ after work', s.stage st c = .ok (st₁, after) ∧
        s.stageAll st₁ rest = .ok (st', work') ∧ work = after :: work' := by
  constructor
  · intro h
    obtain ⟨⟨st₁, after⟩, hc, hrest⟩ := Fault.bind_eq_ok_iff.1 h
    obtain ⟨⟨st₂, work'⟩, hall, hlast⟩ := Fault.bind_eq_ok_iff.1 hrest
    cases hlast
    exact ⟨st₁, after, work', hc, hall, rfl⟩
  · rintro ⟨st₁, after, work', hc, hall, rfl⟩
    exact Fault.bind_eq_ok_iff.2 ⟨_, hc, Fault.bind_eq_ok_iff.2 ⟨_, hall, rfl⟩⟩

theorem stageAll_ok {s : Store} {st st' : Staging} {parts work : List Command}
    (h : s.stageAll st parts = .ok (st', work)) :
    (∀ c ∈ parts, s.answers c) ∧ ∀ id, s.draftAfter st parts id = .ok (st'.drafts.get? id) := by
  induction parts generalizing st work with
  | nil =>
    cases h
    exact ⟨by simp, draftAfter_nil s st'⟩
  | cons c rest ih =>
    obtain ⟨st₁, after, work₂, hc, hall, rfl⟩ := stageAll_cons_eq_ok_iff.1 h
    obtain ⟨hanswer, hview⟩ := stage_ok rest hc
    obtain ⟨hanswers, hviews⟩ := ih hall
    exact ⟨List.forall_mem_cons.2 ⟨hanswer, hanswers⟩, fun id => (hview id).trans (hviews id)⟩

theorem exists_stageAll {s : Store} (st : Staging) {parts : List Command}
    (hanswers : ∀ c ∈ parts, s.answers c)
    (hviews : ∀ id, ∃ o, s.draftAfter st parts id = .ok o) :
    ∃ staged, s.stageAll st parts = .ok staged := by
  induction parts generalizing st with
  | nil => exact ⟨_, rfl⟩
  | cons c rest ih =>
    obtain ⟨hanswer, hanswers⟩ := List.forall_mem_cons.1 hanswers
    obtain ⟨st₁, after, hc⟩ := exists_stage hanswer hviews
    have hview := (stage_ok rest hc).2
    obtain ⟨⟨st₂, work⟩, hall⟩ := ih st₁ hanswers fun id => by
      obtain ⟨o, ho⟩ := hviews id
      exact ⟨o, (hview id).symm.trans ho⟩
    exact ⟨(st₂, after :: work), stageAll_cons_eq_ok_iff.2 ⟨st₁, after, work, hc, hall, rfl⟩⟩

theorem isConflict_of_stageAll {s : Store} {st : Staging} {parts : List Command} {fault : Fault}
    (h : s.stageAll st parts = .error fault) : fault.isConflict = false := by
  induction parts generalizing st with
  | nil => cases h
  | cons c rest ih =>
    rcases Fault.bind_eq_error_iff.1 h with hc | ⟨⟨st₁, after⟩, -, hrest⟩
    · exact isConflict_of_stage hc
    · rcases Fault.bind_eq_error_iff.1 hrest with hall | ⟨staged, -, hlast⟩
      · exact ih hall
      · cases hlast

/-! ### Tracked states -/

theorem tracked_record_of_isTracked {st : Staging} {id : StateId} {c : Command}
    (h : c.isTracked = true) :
    (st.record id c).tracked = if id ∈ st.tracked then st.tracked else st.tracked ++ [id] := by
  simp only [Staging.record, h, Bool.true_and]
  by_cases hmem : id ∈ st.tracked
  · simp [hmem]
  · simp [hmem]

theorem tracked_record_of_not {st : Staging} {id : StateId} {c : Command}
    (h : c.isTracked = false) : (st.record id c).tracked = st.tracked := by
  simp only [Staging.record, h, Bool.false_and]
  rfl

theorem tracked_stage {s : Store} {st st' : Staging} {c after : Command}
    (h : s.stage st c = .ok (st', after)) :
    st'.tracked = match c.trackedId? with
      | some id => if id ∈ st.tracked then st.tracked else st.tracked ++ [id]
      | none => st.tracked := by
  obtain ⟨-, ⟨hidle, -, htracked⟩ | ⟨d, hd, -, heffect, rfl⟩⟩ := cases_of_stage h
  · have hnone : c.trackedId? = none := by
      cases hid : c.trackedId? with
      | none => rfl
      | some id =>
        have hworks := worksOn_of_trackedId? hid
        rw [hidle id] at hworks
        cases hworks
    rw [hnone]
    exact htracked
  · have hkeep := (effect_keeps hd heffect).1
    cases htracked : c.isTracked with
    | true =>
      rw [tracked_record_of_isTracked (hkeep.trans htracked), trackedId?, if_pos htracked, hd]
      rfl
    | false =>
      rw [tracked_record_of_not (hkeep.trans htracked), trackedId?, htracked]
      rfl

theorem tracked_stageAll {s : Store} {st st' : Staging} {parts work : List Command}
    (h : s.stageAll st parts = .ok (st', work)) :
    st'.tracked =
      st.tracked ++ ((parts.filterMap trackedId?).filter (· ∉ st.tracked)).eraseDups := by
  induction parts generalizing st work with
  | nil =>
    cases h
    simp
  | cons c rest ih =>
    obtain ⟨st₁, after, work₂, hc, hall, rfl⟩ := stageAll_cons_eq_ok_iff.1 h
    have hone := tracked_stage hc
    rw [ih hall, hone]
    cases hid : c.trackedId? with
    | none => rw [List.filterMap_cons_none hid]
    | some id =>
      rw [List.filterMap_cons_some hid, List.filter_cons]
      by_cases hmem : id ∈ st.tracked
      · simp [hmem]
      · have hmore (other : StateId) :
            other ∈ st.tracked ++ [id] ↔ other ∈ st.tracked ∨ other = id := by simp
        have hnew := eraseDups_filter_cons (rest.filterMap trackedId?) hmore
        simp only [hmem, if_false, not_false_eq_true, decide_true, if_true]
        rw [List.append_assoc, hnew]
        rfl

end Store

end Workflow
