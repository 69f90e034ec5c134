import Workflow.Proofs.CachedCommits
import Workflow.Proofs.Event

/-!
# What a bundle continues

A committed bundle continues the states of its parts that continue one, whatever its other parts on
them do. A draft that it continues is the one just committed: if the last move of the bundle pauses
or ends a state, a part before it or after it that continues the state continues it paused or ended.
-/

set_option autoImplicit false

namespace Workflow

namespace Command

/-- Whether the command moves its state on in the life cycle. -/
def isMove : Command → Bool
  | transit .. | pause .. | resume .. | finish .. => true
  | _ => false

/-- Whether the command leaves its state paused or ended. -/
def rests : Command → Bool
  | pause .. | finish .. => true
  | _ => false

/-- The last move of a state in a bundle. -/
def lastMove? (id : StateId) (parts : List Command) : Option Command :=
  ((onState id parts).filter isMove).getLast?

/-- The state that the command, as part of a bundle, continues. -/
def continuedId? (c : Command) : Option StateId := if c.continues then c.draftId? else none

theorem continues_eq (c : Command) :
    c.continues = ["transit", "resume", "commit_state_ctx"].contains c.name := by
  cases c <;> rfl

theorem continuedId?_congr {c back : Command} (hname : back.name = c.name)
    (hid : back.draftId? = c.draftId?) : back.continuedId? = c.continuedId? := by
  rw [continuedId?, continuedId?, continues_eq, continues_eq, hname, hid]

theorem isTracked_of_continues {c : Command} (h : c.continues = true) : c.isTracked = true := by
  cases c <;> first | rfl | cases h

theorem trackedId?_of_continuedId? {c : Command} {id : StateId} (h : c.continuedId? = some id) :
    c.trackedId? = some id := by
  unfold continuedId? at h
  split at h
  next hcontinues =>
    rw [trackedId?, if_pos (isTracked_of_continues hcontinues)]
    exact h
  next => cases h

theorem isMove_withDraft (c : Command) (d : Draft) : (c.withDraft d).isMove = c.isMove := by
  cases c <;> rfl

theorem rests_withDraft (c : Command) (d : Draft) : (c.withDraft d).rests = c.rests := by
  cases c <;> rfl

section

variable {c after : Command} (h : c.apply = .ok after)

include h

theorem transition_apply (hmove : c.isMove = false) {d e : Draft} (hd : c.draft? = some d)
    (he : after.draft? = some e) : e.current.transition = d.current.transition := by
  cases c with
  | transit _ _ _ | pause _ _ _ | resume _ _ _ | finish _ _ => cases hmove
  | stack carrier stacked note =>
    obtain ⟨text, rfl⟩ := eq_of_applyStack h
    cases hd
    cases he
    rfl
  | unstack carrier note result =>
    obtain ⟨stacked, rfl⟩ := eq_of_applyUnstack h
    cases hd
    cases he
    rfl
  | refer d blob note =>
    obtain ⟨text, rfl⟩ := eq_of_applyRefer h
    cases hd
    cases he
    rfl
  | deref d note blob =>
    obtain ⟨found, rfl⟩ := eq_of_applyDeref h
    cases hd
    cases he
    rfl
  | _ =>
    cases h
    rw [Option.some.inj (hd.symm.trans he)]

theorem isPaused_or_isEnded_apply (hrests : c.rests = true) {e : Draft}
    (he : after.draft? = some e) : (e.current.isPaused || e.current.isEnded) = true := by
  cases c with
  | pause d target annotations =>
    cases h
    cases he
    have hmark : (annotations.insert Mark.lifecycle Mark.paused).get? Mark.lifecycle =
        some Mark.paused := SortedMap.get?_insert_self ..
    exact Bool.or_eq_true_iff.2 (.inl (beq_iff_eq.2 hmark))
  | finish d annotations =>
    cases h
    cases he
    have hmark : (annotations.insert Mark.lifecycle Mark.ended).get? Mark.lifecycle =
        some Mark.ended := SortedMap.get?_insert_self ..
    exact Bool.or_eq_true_iff.2 (.inr (beq_iff_eq.2 hmark))
  | _ => cases hrests

end

end Command

namespace Store

open Command

variable {s : Store}

/-! ### The last move -/

section

variable {d : Draft} {c after : Command} (h : s.effect d c = .ok after)

include h

theorem transition_effect {own e : Draft} (hown : c.draft? = some own) (he : after.draft? = some e)
    (hmove : c.isMove = false) : e.current.transition = d.current.transition := by
  obtain ⟨applied, happly, hresolve⟩ := Fault.bind_eq_ok_iff.1 h
  refine transition_apply happly ((isMove_withDraft c d).trans hmove) (draft?_withDraft hown d) ?_
  rw [← (resolve_keeps hresolve).2, he]

theorem isPaused_or_isEnded_effect {e : Draft} (he : after.draft? = some e)
    (hrests : c.rests = true) : (e.current.isPaused || e.current.isEnded) = true := by
  obtain ⟨applied, happly, hresolve⟩ := Fault.bind_eq_ok_iff.1 h
  refine isPaused_or_isEnded_apply happly ((rests_withDraft c d).trans hrests) ?_
  rw [← (resolve_keeps hresolve).2, he]

end

theorem replay_moves {id : StateId} {parts : List Command} {d final : Draft}
    (h : s.replay d (onState id parts) = .ok final) :
    (lastMove? id parts = none → final.current.transition = d.current.transition) ∧
      ∀ last, lastMove? id parts = some last → last.rests = true →
        (final.current.isPaused || final.current.isEnded) = true := by
  unfold lastMove?
  have hworks : ∀ c ∈ onState id parts, c.worksOn id = true :=
    fun c hc => (List.mem_filter.1 hc).2
  generalize onState id parts = cs at h hworks
  induction cs generalizing d with
  | nil =>
    cases h
    exact ⟨fun _ => rfl, nofun⟩
  | cons c rest ih =>
    obtain ⟨-, own, hown, -⟩ := worksOn_iff.1 (hworks c List.mem_cons_self)
    obtain ⟨after, heffect, hrest⟩ := replay_cons_ok_iff.1 h
    obtain ⟨-, e, he, -, -⟩ := effect_keeps hown heffect
    rw [he, Option.getD_some] at hrest
    obtain ⟨hnone, hsome⟩ := ih hrest fun c hc => hworks c (List.mem_cons_of_mem _ hc)
    cases hmove : c.isMove with
    | false =>
      rw [List.filter_cons_of_neg (by simp [hmove])]
      exact ⟨fun hno => (hnone hno).trans (transition_effect heffect hown he hmove), hsome⟩
    | true =>
      rw [List.filter_cons_of_pos hmove]
      cases hlast : (rest.filter isMove).getLast? with
      | some last =>
        rw [List.getLast?_cons, hlast]
        exact ⟨nofun, fun _ hl hr => hsome last hlast (by cases hl; exact hr)⟩
      | none =>
        rw [List.getLast?_cons, hlast]
        refine ⟨nofun, fun _ hl hr => ?_⟩
        cases hl
        have hkept := hnone hlast
        have hfinal := isPaused_or_isEnded_effect heffect he hr
        unfold State.isPaused State.isEnded at hfinal ⊢
        rw [hkept]
        exact hfinal

/-! ### What is continued -/

theorem filterMap_eq_of_forall₂ {f : Command → Option StateId} {R : Command → Command → Prop}
    (hsame : ∀ c back, R c back → f back = f c) {parts done : List Command}
    (h : List.Forall₂ R parts done) : done.filterMap f = parts.filterMap f := by
  induction h with
  | nil => rfl
  | cons hone _ ih => rw [List.filterMap_cons, List.filterMap_cons, hsame _ _ hone, ih]

section

variable {stored : Store} (hsound : s.log.Sound) {now : Instant} {parts done : List Command}
  (h : s.commit now parts = .ok (stored, done))

include hsound h

theorem continuations_of_commit :
    (bundle done).continuations.map Draft.id = (parts.filterMap continuedId?).eraseDups ∧
      ∀ d ∈ (bundle done).continuations,
        ∃ e, stored.log.latest? d.id = some e ∧ d = ⟨e, e, []⟩ := by
  have hback {d : Draft} (hd : d ∈ (bundle done).continuations) :
      ∃ back ∈ done, back.continues = true ∧ back.draft? = some d := by
    have hmem := List.mem_of_find?_eq_some (find?_of_mem_firstOfEach hd).2
    obtain ⟨back, hback, hdraft⟩ := List.mem_filterMap.1 hmem
    obtain ⟨hback, hcontinues⟩ := List.mem_filter.1 hback
    exact ⟨back, hback, hcontinues, hdraft⟩
  constructor
  · have hids : ((done.filter continues).filterMap draft?).map Draft.id =
        done.filterMap continuedId? := by
      rw [List.map_filterMap, List.filterMap_filter]
      rfl
    have hkept : done.filterMap continuedId? = parts.filterMap continuedId? :=
      filterMap_eq_of_forall₂ (fun _ _ ⟨hname, hid⟩ => continuedId?_congr hname hid)
        (kinds_of_commit hsound h)
    rw [continuations, map_id_firstOfEach, hids, hkept]
    simp
  · intro d hd
    obtain ⟨back, hmem, hcontinues, hdraft⟩ := hback hd
    obtain ⟨e, he, -, hde⟩ :=
      settled_of_commit hsound h hmem (isTracked_of_continues hcontinues) hdraft
    exact ⟨e, he, hde⟩

theorem resting_of_commit {id : StateId} {last : Command} (hlast : lastMove? id parts = some last)
    (hrests : last.rests = true) :
    ∃ e, stored.log.latest? id = some e ∧ (e.isPaused || e.isEnded) = true := by
  have htracked : id ∈ trackedIds parts := by
    obtain ⟨hon, -⟩ := List.mem_filter.1 (List.mem_of_getLast? hlast)
    obtain ⟨hmem, hworks⟩ := List.mem_filter.1 hon
    have hdraft := draftId?_of_worksOn hworks
    refine mem_trackedIds_iff.2 ⟨last, hmem, ?_⟩
    cases last <;> first | exact hdraft | cases hrests
  obtain ⟨first, final, e, -, hreplay, hentry, hlatest, -⟩ := entry_of_commit hsound h htracked
  refine ⟨e, hlatest, ?_⟩
  rw [hentry]
  exact (replay_moves hreplay).2 last hlast hrests

end

end Store

namespace Scenario

open Command Event Execution

/-! ### What an execution goes on with -/

theorem leads_goOn_continuations (engine : Nat) (c : Command) (w : World) :
    Leads (goOn engine c) w fun stage v =>
      (∀ d, stage = .enter d → d ∈ c.continuations) ∧
        ∀ key task, v.tasks.get? key = some task → w.tasks.get? key = some task ∨
          ∃ d ∈ c.continuations, task = .execution engine (.fresh d) := by
  rw [leads_goOn]
  cases hall : c.continuations with
  | nil =>
    refine ⟨fun d hd => ?_, fun _ _ htask => .inl htask⟩
    unfold Execution.done at hd
    cases hd
  | cons next others =>
    let P (v : World) : Prop := ∀ key task, v.tasks.get? key = some task →
      w.tasks.get? key = some task ∨
        ∃ d ∈ next :: others, task = .execution engine (.fresh d)
    have hlaunch (d : Draft) (hd : d ∈ others) (v : World) (hv : P v) :
        Leads (launch engine d) v fun _ => P := by
      rw [leads_launch]
      split
      · intro key task htask
        change (v.tasks.insert v.nextKey _).get? key = some task at htask
        rw [SortedMap.get?_insert] at htask
        split at htask
        · cases htask
          exact .inr ⟨d, List.mem_cons_of_mem _ hd, rfl⟩
        · exact hv key task htask
      · exact hv
    refine ⟨fun d hd => ?_, each_keeps hlaunch fun _ _ htask => .inl htask⟩
    obtain rfl := Stage.enter.inj hd
    exact List.mem_cons_self

/-- A bundle that leaves a state paused or ended continues it exactly if a part of it continues the
state; it does so with the paused or ended entry. Without such a part, an execution neither goes on
with the state nor launches it. -/
theorem resting_state_is_continued_iff (requests : List Store.Request) (now : Instant)
    (parts done : List Command) (stored : Store) (id : StateId) (last : Command)
    (h : (Store.run requests).commit now parts = .ok (stored, done))
    (hlast : lastMove? id parts = some last) (hrests : last.rests = true) :
    ∃ e, stored.log.latest? id = some e ∧ (e.isPaused || e.isEnded) = true ∧
      (∀ d ∈ (bundle done).continuations, d.id = id → d = ⟨e, e, []⟩) ∧
      ((∃ d ∈ (bundle done).continuations, d.id = id) ↔
        ∃ c ∈ parts, c.continues = true ∧ c.draftId? = some id) ∧
      ((∀ c ∈ parts, c.continues = true → c.draftId? ≠ some id) → ∀ engine w,
        Leads (goOn engine (.bundle done)) w fun stage v =>
          (∀ d, stage = .enter d → d.id ≠ id) ∧
            ∀ key task, v.tasks.get? key = some task → w.tasks.get? key = some task ∨
              ∃ d, task = .execution engine (.fresh d) ∧ d.id ≠ id) := by
  have hsound := Store.sound_run requests
  obtain ⟨hids, hentries⟩ := Store.continuations_of_commit hsound h
  obtain ⟨e, he, hresting⟩ := Store.resting_of_commit hsound h hlast hrests
  have hiff : (∃ d ∈ (bundle done).continuations, d.id = id) ↔
      ∃ c ∈ parts, c.continues = true ∧ c.draftId? = some id := by
    rw [← List.mem_map, hids, List.mem_eraseDups, List.mem_filterMap]
    refine exists_congr fun c => and_congr_right fun _ => ?_
    unfold continuedId?
    split <;> simp [*]
  refine ⟨e, he, hresting, fun d hd hdid => ?_, hiff, fun hno engine w => ?_⟩
  · obtain ⟨f, hf, rfl⟩ := hentries d hd
    rw [hdid, he] at hf
    cases hf
    rfl
  · have hnone : ∀ d ∈ (bundle done).continuations, d.id ≠ id := by
      intro d hd hdid
      obtain ⟨c, hc, hcontinues, hcid⟩ := hiff.1 ⟨d, hd, hdid⟩
      exact hno c hc hcontinues hcid
    refine (leads_goOn_continuations engine (.bundle done) w).mono fun stage v hleads => ?_
    obtain ⟨henter, htasks⟩ := hleads
    refine ⟨fun d hd => hnone d (henter d hd), fun key task htask => ?_⟩
    exact (htasks key task htask).imp_right fun ⟨d, hd, htask⟩ => ⟨d, htask, hnone d hd⟩

/-- A state is paused beside one that moves on. -/
theorem resting_state_is_continued_iff_of_pause :
    let a : Draft := .ofState (.new ⟨"a"⟩)
    let b : Draft := .ofState (.new ⟨"b"⟩)
    let parts : List Command := [.pause a none ∅, .transit b ⟨"x"⟩ ∅]
    ∃ stored done, (Store.run []).commit default parts = .ok (stored, done) ∧
      lastMove? ⟨"a"⟩ parts = some (.pause a none ∅) ∧
      (bundle done).continuations ≠ [] ∧ ∀ d ∈ (bundle done).continuations, d.id ≠ ⟨"a"⟩ := by
  intro a b parts
  have hrun : ((Store.run []).commit default parts).map
      (fun x => (bundle x.2).continuations.map Draft.id) = .ok [⟨"b"⟩] := by
    simp only [parts, a, b]
    rfl
  obtain ⟨⟨stored, done⟩, hcommit, hids⟩ := Fault.map_eq_ok_iff.1 hrun
  have hlast : lastMove? ⟨"a"⟩ parts = some (.pause a none ∅) := rfl
  obtain ⟨-, -, -, -, hiff, -⟩ := resting_state_is_continued_iff [] default parts done stored ⟨"a"⟩
    (.pause a none ∅) hcommit hlast rfl
  refine ⟨stored, done, hcommit, hlast, fun hnil => ?_, fun d hd hid => ?_⟩
  · rw [hnil] at hids
    cases hids
  · obtain ⟨c, hc, hcontinues, hcid⟩ := hiff.1 ⟨d, hd, hid⟩
    simp only [parts, List.mem_cons, List.not_mem_nil, or_false] at hc
    rcases hc with rfl | rfl
    · cases hcontinues
    · exact absurd hcid (by decide)

/-- Two states move on, then one is paused and the other ended, all in one bundle. An execution goes
on with the paused state, and the ended one continues as well. -/
theorem resting_states_are_continued :
    let a : Draft := .ofState (.new ⟨"a"⟩)
    let b : Draft := .ofState (.new ⟨"b"⟩)
    let parts : List Command :=
      [.transit a ⟨"x"⟩ ∅, .pause a none ∅, .transit b ⟨"x"⟩ ∅, .finish b ∅]
    ∃ stored done, (Store.run []).commit default parts = .ok (stored, done) ∧
      lastMove? ⟨"a"⟩ parts = some (.pause a none ∅) ∧
      lastMove? ⟨"b"⟩ parts = some (.finish b ∅) ∧
      (bundle done).continuations.map
          (fun d => (d.id, d.current.isPaused, d.current.isEnded)) =
        [(⟨"a"⟩, true, false), (⟨"b"⟩, false, true)] ∧
      ∀ engine w, Leads (goOn engine (.bundle done)) w fun stage _ =>
        ∃ d, stage = .enter d ∧ d.id = ⟨"a"⟩ := by
  intro a b parts
  have hrun : ((Store.run []).commit default parts).map (fun x =>
      (bundle x.2).continuations.map fun d => (d.id, d.current.isPaused, d.current.isEnded)) =
        .ok [(⟨"a"⟩, true, false), (⟨"b"⟩, false, true)] := by
    simp only [parts, a, b]
    rfl
  obtain ⟨⟨stored, done⟩, hcommit, hall⟩ := Fault.map_eq_ok_iff.1 hrun
  refine ⟨stored, done, hcommit, rfl, rfl, hall, fun engine w => ?_⟩
  rw [leads_goOn]
  cases hcontinued : (bundle done).continuations with
  | nil =>
    rw [hcontinued] at hall
    cases hall
  | cons next others =>
    rw [hcontinued, List.map_cons] at hall
    exact ⟨next, rfl, congrArg Prod.fst (List.cons.inj hall).1⟩

end Scenario

end Workflow
