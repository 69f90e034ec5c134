import Mathlib.Data.List.Forall2
import Mathlib.Data.List.Nodup
import Workflow.Proofs.Commit

/-!
# What a bundle leaves its states with

The parts of a bundle that work on one state share a draft, and once the bundle is committed each of
them has it, whatever draft it came with. A tracked state is left with the entry that was added for
it. A delay works on no state: it gets what the other parts leave its state with, and keeps its own
draft if there is none.
-/

set_option autoImplicit false

namespace Workflow

namespace Command

/-- What a delay asks for. -/
def request? : Command → Option DelayRequest
  | delay r => some r
  | _ => none

/-- How a part is staged, seen from the drafts that the bundle ends up with: as one of its kind, for
the same draft and the same request. -/
structure Staged (drafts : SortedMap StateId Draft) (c after : Command) : Prop where
  name : after.name = c.name
  draft : (after.adopt drafts).draft? = (c.adopt drafts).draft?
  request : (after.adopt drafts).request? = (c.adopt drafts).request?

/-- A part comes back as one of its kind, with the draft that its state ends up with. -/
structure Returned (drafts : SortedMap StateId Draft) (c back : Command) : Prop where
  name : back.name = c.name
  draft : back.draft? = c.draft?.map fun d => (drafts.get? d.id).getD d

theorem trackedId?_congr {c back : Command} (hname : back.name = c.name)
    (hid : back.draftId? = c.draftId?) : back.trackedId? = c.trackedId? := by
  unfold draftId? at hid
  rw [trackedId?, trackedId?, isTracked_eq, isTracked_eq, hname, hid]

theorem request?_of_not_delay {c : Command} (h : c.isDelay = false) : c.request? = none := by
  cases c <;> first | rfl | cases h

section

variable (drafts : SortedMap StateId Draft)

theorem draft?_adopt (c : Command) :
    (c.adopt drafts).draft? = c.draft?.map fun d => (drafts.get? d.id).getD d := by
  cases hd : c.draft? with
  | none => rw [adopt_of_no_draft hd, hd, Option.map_none]
  | some d => rw [adopt_eq hd, draft?_withDraft hd, Option.map_some]

theorem request?_adopt (c : Command) :
    (c.adopt drafts).request? = c.request?.map (DelayRequest.adopt drafts) := by
  cases hdelay : c.isDelay with
  | true =>
    cases c with
    | delay r =>
      rw [adopt_delay]
      rfl
    | _ => cases hdelay
  | false =>
    have hkept : (c.adopt drafts).isDelay = false := by
      rw [isDelay_eq, name_adopt, ← isDelay_eq, hdelay]
    rw [request?_of_not_delay hdelay, request?_of_not_delay hkept, Option.map_none]

end

end Command

open Command

/-! ### Staged parts -/

namespace Staging

/-- Every draft stands under its state. -/
def Keyed (st : Staging) : Prop := ∀ id d, st.drafts.get? id = some d → d.id = id

/-- Every state with a draft still has one among other drafts. -/
def Covers (st : Staging) (drafts : SortedMap StateId Draft) : Prop :=
  ∀ id, st.drafts.get? id ≠ none → drafts.get? id ≠ none

theorem keyed_start (b : Blobs) : (start b).Keyed := fun _ _ hd => nomatch hd

theorem Keyed.id_getD {st : Staging} (h : st.Keyed) (d : Draft) :
    ((st.drafts.get? d.id).getD d).id = d.id := by
  cases hprepared : st.drafts.get? d.id with
  | none => rfl
  | some prepared => exact h d.id prepared hprepared

theorem Keyed.record {st : Staging} (h : st.Keyed) {id : StateId} {c : Command}
    (hid : ∀ d, c.draft? = some d → d.id = id) : (st.record id c).Keyed := by
  intro other d hd
  unfold Staging.record at hd
  cases hown : c.draft? with
  | none =>
    rw [hown] at hd
    exact h other d hd
  | some own =>
    simp only [hown, SortedMap.get?_insert] at hd
    split at hd
    next heq =>
      cases hd
      rw [heq]
      exact hid d hown
    next => exact h other d hd

end Staging

namespace Store

section

variable {s : Store} {st st' : Staging} {drafts : SortedMap StateId Draft}

theorem keeps_stage (hkeyed : st.Keyed) {c after : Command}
    (h : s.stage st c = .ok (st', after)) :
    st'.Keyed ∧ after.draftId? = c.draftId? := by
  obtain ⟨-, ⟨hidle, hdrafts, -⟩ | ⟨d, hd, -, heffect, rfl⟩⟩ := cases_of_stage h
  · refine ⟨by unfold Staging.Keyed; rw [hdrafts]; exact hkeyed, ?_⟩
    rcases cases_of_idle hidle h with ⟨r, rfl, rfl⟩ | ⟨hnone, hnone', -⟩
    · exact congrArg some (hkeyed.id_getD r.draft)
    · rw [draftId?, draftId?, hnone, hnone']
  · obtain ⟨-, e, he, hid, -⟩ := effect_keeps hd heffect
    rw [hkeyed.id_getD] at hid
    refine ⟨hkeyed.record fun e' he' => ?_, ?_⟩
    · rw [he] at he'
      cases he'
      exact hid
    · rw [draftId?, draftId?, he, hd, Option.map_some, Option.map_some, hid]

theorem covers_of_stage {c after : Command} (h : s.stage st c = .ok (st', after))
    (hcovers : st'.Covers drafts) : st.Covers drafts := by
  intro id hid
  refine hcovers id ?_
  obtain ⟨-, ⟨-, hdrafts, -⟩ | ⟨d, hd, -, heffect, rfl⟩⟩ := cases_of_stage h
  · rw [hdrafts]
    exact hid
  · by_cases heq : id = d.id
    · obtain ⟨-, e, he, -⟩ := effect_keeps hd heffect
      subst heq
      simp [Staging.record, he, SortedMap.get?_insert_self]
    · rw [get?_record_of_ne heq]
      exact hid

theorem adopt_adopt (hkeyed : st.Keyed) (hcovers : st.Covers drafts) (r : DelayRequest) :
    (r.adopt st.drafts).adopt drafts = r.adopt drafts := by
  have hid : (r.adopt st.drafts).draft.id = r.draft.id := hkeyed.id_getD r.draft
  have hdraft : (drafts.get? r.draft.id).getD (r.adopt st.drafts).draft =
      (drafts.get? r.draft.id).getD r.draft := by
    cases hfinal : drafts.get? r.draft.id with
    | some final => rfl
    | none =>
      have hnone : st.drafts.get? r.draft.id = none := by
        by_contra hprepared
        exact hcovers r.draft.id hprepared hfinal
      rw [DelayRequest.adopt, hnone, Option.getD_none]
  rw [← hid] at hdraft
  unfold DelayRequest.adopt at hid hdraft ⊢
  rw [hdraft, hid]

theorem staged_of_idle (hkeyed : st.Keyed) {c after : Command} (h : s.stage st c = .ok (st', after))
    (hidle : ∀ id, c.worksOn id = false) (hcovers : st.Covers drafts) : Staged drafts c after := by
  rcases cases_of_idle hidle h with ⟨r, rfl, rfl⟩ | ⟨hnone, hnone', hname⟩
  · have hsame : (Command.delay (r.adopt st.drafts)).adopt drafts =
        (Command.delay r).adopt drafts := by
      rw [adopt_delay, adopt_delay, adopt_adopt hkeyed hcovers]
    exact ⟨rfl, congrArg draft? hsame, congrArg request? hsame⟩
  · have hrequest {c : Command} (h : c.draft? = none) : c.request? = none := by
      cases c <;> first | rfl | cases h
    refine ⟨hname, ?_, ?_⟩
    · rw [draft?_adopt, draft?_adopt, hnone, hnone']
    · rw [request?_adopt, request?_adopt, hrequest hnone, hrequest hnone']

theorem staged_of_stage (hkeyed : st.Keyed) {c after : Command}
    (h : s.stage st c = .ok (st', after)) (hcovers : st'.Covers drafts) :
    Staged drafts c after := by
  obtain ⟨-, ⟨hidle, -, -⟩ | ⟨d, hd, hdelay, heffect, rfl⟩⟩ := cases_of_stage h
  · exact staged_of_idle hkeyed h hidle (covers_of_stage h hcovers)
  · have hname := name_effect heffect
    obtain ⟨-, e, he, hid, -⟩ := effect_keeps hd heffect
    rw [hkeyed.id_getD] at hid
    have hprepared : drafts.get? d.id ≠ none := by
      refine hcovers d.id ?_
      simp [Staging.record, he, SortedMap.get?_insert_self]
    obtain ⟨final, hfinal⟩ := Option.ne_none_iff_exists'.1 hprepared
    refine ⟨hname, ?_, ?_⟩
    · rw [draft?_adopt, draft?_adopt, he, hd, Option.map_some, Option.map_some, hid, hfinal]
      rfl
    · have hkept : after.isDelay = false := by
        rw [isDelay_eq, hname, ← isDelay_eq, hdelay]
      rw [request?_adopt, request?_adopt, request?_of_not_delay hdelay, request?_of_not_delay hkept]

theorem staged_of_stageAll (hkeyed : st.Keyed) {parts work : List Command}
    (h : s.stageAll st parts = .ok (st', work)) (hcovers : st'.Covers drafts) :
    st.Covers drafts ∧ List.Forall₂ (Staged drafts) parts work := by
  induction parts generalizing st work with
  | nil =>
    cases h
    exact ⟨hcovers, .nil⟩
  | cons c rest ih =>
    obtain ⟨st₁, after, work₂, hone, hall, rfl⟩ := stageAll_cons_eq_ok_iff.1 h
    obtain ⟨hlater, hrest⟩ := ih (keeps_stage hkeyed hone).1 hall
    exact ⟨covers_of_stage hone hlater, .cons (staged_of_stage hkeyed hone hlater) hrest⟩

end

/-! ### Parts that come back -/

theorem exists_of_mem_right {α β : Type} {R : α → β → Prop} {as : List α} {bs : List β}
    (h : List.Forall₂ R as bs) {b : β} (hb : b ∈ bs) : ∃ a ∈ as, R a b := by
  induction h with
  | nil => cases hb
  | @cons a first _ _ hone _ ih =>
    rcases List.mem_cons.1 hb with rfl | hb
    · exact ⟨a, List.mem_cons_self, hone⟩
    · obtain ⟨a', ha', hrel⟩ := ih hb
      exact ⟨a', List.mem_cons_of_mem _ ha', hrel⟩

theorem returned_of_staged {drafts : SortedMap StateId Draft} {c after : Command}
    (h : Staged drafts c after) (now : Instant) (delays : Delays) :
    Returned drafts c (conclude now drafts delays after).2 := by
  have hname : (after.adopt drafts).name = c.name := (name_adopt drafts after).trans h.name
  have hdraft := h.draft
  rw [draft?_adopt drafts c] at hdraft
  unfold conclude
  split
  next r hr =>
    rw [hr] at hname hdraft
    exact ⟨hname, hdraft⟩
  next => exact ⟨hname, hdraft⟩

theorem returned_of_concludeAll {drafts : SortedMap StateId Draft} {parts work : List Command}
    (h : List.Forall₂ (Staged drafts) parts work) (now : Instant) (delays : Delays) :
    List.Forall₂ (Returned drafts) parts (concludeAll now drafts delays work).2 := by
  induction h generalizing delays with
  | nil => exact .nil
  | cons hone _ ih => exact .cons (returned_of_staged hone now delays) (ih _)

/-- The drafts that a bundle ends up with: those prepared for its states, the tracked ones settled
as the entries that are added. -/
def finals (s : Store) (now : Instant) (st : Staging) : SortedMap StateId Draft :=
  (appendAll now s.log st.drafts st.tracked).2

theorem covers_appendAll (now : Instant) (l : Log) (drafts : SortedMap StateId Draft)
    (ids : List StateId) {id : StateId} (h : drafts.get? id ≠ none) :
    (appendAll now l drafts ids).2.get? id ≠ none := by
  induction ids generalizing l drafts with
  | nil => exact h
  | cons other rest ih =>
    unfold appendAll
    cases drafts.get? other with
    | none => exact ih l drafts h
    | some d =>
      refine ih _ _ ?_
      by_cases heq : id = other
      · rw [heq, SortedMap.get?_insert_self]
        exact Option.some_ne_none _
      · rw [SortedMap.get?_insert_of_ne _ _ heq]
        exact h

section

variable {s : Store} {now : Instant} {parts work : List Command} {st : Staging}
  (h : s.stageAll (.start s.blobs) parts = .ok (st, work))

include h

theorem staged_of_start (now : Instant) : List.Forall₂ (Staged (s.finals now st)) parts work :=
  (staged_of_stageAll (Staging.keyed_start s.blobs) h fun _ => covers_appendAll now s.log _ _).2

theorem returned_of_stageAll (now : Instant) :
    List.Forall₂ (Returned (s.finals now st)) parts (s.carryOut now st work).1 :=
  returned_of_concludeAll (staged_of_start h now) now s.delays

end

/-! ### Entries -/

theorem get?_appendAll_of_notMem (now : Instant) (l : Log) (drafts : SortedMap StateId Draft)
    {ids : List StateId} {id : StateId} (h : id ∉ ids) :
    (appendAll now l drafts ids).2.get? id = drafts.get? id := by
  induction ids generalizing l drafts with
  | nil => rfl
  | cons other rest ih =>
    rw [List.mem_cons, not_or] at h
    obtain ⟨hne, hrest⟩ := h
    unfold appendAll
    cases drafts.get? other with
    | none => exact ih l drafts hrest
    | some d => exact (ih _ _ hrest).trans (SortedMap.get?_insert_of_ne _ _ hne)

theorem exists_settled_of_appendAll (now : Instant) (l : Log) (drafts : SortedMap StateId Draft)
    {ids : List StateId} (hnodup : ids.Nodup)
    (hdrafts : ∀ id ∈ ids, ∃ d, drafts.get? id = some d ∧ d.id = id) {id : StateId}
    (hid : id ∈ ids) :
    ∃ e, (appendAll now l drafts ids).2.get? id = some ⟨e, e, []⟩ ∧
      e ∈ (appendAll now l drafts ids).1.entries ∧ e.id = id ∧ l.head < e.rev := by
  induction ids generalizing l drafts with
  | nil => cases hid
  | cons first rest ih =>
    obtain ⟨hnotin, hrest⟩ := List.nodup_cons.1 hnodup
    obtain ⟨d, hd, hfirst⟩ := hdrafts first List.mem_cons_self
    let stored := entryOf l now d.current
    unfold appendAll
    simp only [hd]
    rcases List.mem_cons.1 hid with rfl | hmem
    · refine ⟨stored, ?_, ?_, hfirst, ?_⟩
      · rw [get?_appendAll_of_notMem _ _ _ hnotin, SortedMap.get?_insert_self]
        rfl
      · refine (prefix_appendAll now _ _ rest).subset ?_
        rw [Log.entries_append]
        simp [stored]
      · change l.head < l.nextRev
        unfold Log.nextRev
        omega
    · have hothers (other : StateId) (hother : other ∈ rest) :
          ∃ d', (drafts.insert first (d.settle stored)).get? other = some d' ∧ d'.id = other := by
        have hne : other ≠ first := fun heq => hnotin (heq ▸ hother)
        rw [SortedMap.get?_insert_of_ne _ _ hne]
        exact hdrafts other (List.mem_cons_of_mem _ hother)
      obtain ⟨e, he, hin, hkeep, hlt⟩ := ih (l.append stored) _ hrest hothers hmem
      refine ⟨e, he, hin, hkeep, ?_⟩
      rw [Log.head_append, Log.nextRev] at hlt
      omega

theorem mem_added_of_lt {s stored : Store} (hsound : s.log.Sound) {added : List State}
    (hentries : stored.log.entries = s.log.entries ++ added) {e : State}
    (he : e ∈ stored.log.entries) (hlt : s.log.head < e.rev) : e ∈ added := by
  rw [hentries] at he
  refine (List.mem_append.1 he).resolve_left fun hold => ?_
  have hle := (hsound.rev_of_mem hold).2
  omega

section

variable {s stored : Store} (hsound : s.log.Sound) {now : Instant} {parts done : List Command}
  (h : s.commit now parts = .ok (stored, done))

include hsound h

theorem latest?_of_commit {e : State} (he : e ∈ stored.log.entries) (hlt : s.log.head < e.rev) :
    stored.log.latest? e.id = some e := by
  obtain ⟨added, hentries, hids, -⟩ := exists_added_of_commit hsound h
  have hnodup := nodup_trackedIds parts
  rw [← hids] at hnodup
  refine (sound_of_commit hsound h).latest?_eq_some_iff.2 ⟨he, rfl, fun f hf hid => ?_⟩
  by_cases hlater : s.log.head < f.rev
  · obtain rfl := List.inj_on_of_nodup_map hnodup (mem_added_of_lt hsound hentries hf hlater)
      (mem_added_of_lt hsound hentries he hlt) hid
    exact Int.le_refl _
  · omega

/-- The latest entry of a tracked state is the one that was added for it: the draft of the first
part on the state with the effects of all. -/
theorem entry_of_commit {id : StateId} (hid : id ∈ trackedIds parts) :
    ∃ first final e, firstDraft? id parts = some first ∧
      s.replay first (onState id parts) = .ok final ∧
      e = { final.current with rev := e.rev, committedAt := some now } ∧
      stored.log.latest? id = some e ∧ s.log.head < e.rev := by
  obtain ⟨added, hentries, hids, hadded⟩ := exists_added_of_commit hsound h
  obtain ⟨i, hi⟩ := List.mem_iff_getElem?.1 hid
  obtain ⟨first, final, hfirst, hreplay, he⟩ := hadded i id hi
  have hown : some final.current.id = some id := by
    rw [← hi, ← hids, List.getElem?_map, he]
    rfl
  have hmem := List.mem_of_getElem? he
  have hlatest := latest?_of_commit hsound h (hentries ▸ List.mem_append_right _ hmem) (by
    change (s.log.entries.length : Int) < s.log.entries.length + i + 1
    omega)
  refine ⟨first, final, _, hfirst, hreplay, rfl, Option.some.inj hown ▸ hlatest, ?_⟩
  change (s.log.entries.length : Int) < s.log.entries.length + i + 1
  omega

end

/-! ### What a state is left with -/

/-- What a bundle leaves the state of a draft with: if the state is tracked, its latest entry, which
is the draft of the first part on the state with the effects of all; if it is not, that draft
itself; and the given draft if no part works on the state. -/
inductive Outcome (s stored : Store) (now : Instant) (parts : List Command) (own : Draft) :
    Draft → Prop
  | committed {first final : Draft} {e : State} (htracked : own.id ∈ trackedIds parts)
      (hfirst : firstDraft? own.id parts = some first)
      (hreplay : s.replay first (onState own.id parts) = .ok final)
      (hentry : e = { final.current with rev := e.rev, committedAt := some now })
      (hlatest : stored.log.latest? own.id = some e) (hnew : s.log.head < e.rev) :
      Outcome s stored now parts own ⟨e, e, []⟩
  | prepared {first final : Draft} (huntracked : own.id ∉ trackedIds parts)
      (hfirst : firstDraft? own.id parts = some first)
      (hreplay : s.replay first (onState own.id parts) = .ok final) :
      Outcome s stored now parts own final
  | untouched (hnone : firstDraft? own.id parts = none) : Outcome s stored now parts own own

section

variable {s stored : Store} {now : Instant} {parts : List Command} {own d : Draft}

theorem Outcome.unique (h : s.Outcome stored now parts own d) {own' d' : Draft}
    (h' : s.Outcome stored now parts own' d') (hid : own'.id = own.id)
    (hworks : firstDraft? own.id parts ≠ none) : d' = d := by
  cases h with
  | committed htracked hfirst hreplay hentry hlatest hnew =>
    cases h' with
    | committed _ _ _ _ hlatest' _ =>
      rw [hid, hlatest] at hlatest'
      cases hlatest'
      rfl
    | prepared huntracked _ _ => exact absurd (hid ▸ htracked) huntracked
    | untouched hnone => exact absurd (hid ▸ hnone) hworks
  | prepared huntracked hfirst hreplay =>
    cases h' with
    | committed htracked _ _ _ _ _ => exact absurd (hid ▸ htracked) huntracked
    | prepared _ hfirst' hreplay' =>
      rw [hid, hfirst] at hfirst'
      cases hfirst'
      rw [hid, hreplay] at hreplay'
      exact (Except.ok.inj hreplay').symm
    | untouched hnone => exact absurd (hid ▸ hnone) hworks
  | untouched hnone => exact absurd hnone hworks

theorem Outcome.id_eq (h : s.Outcome stored now parts own d) (hsound : stored.log.Sound) :
    d.id = own.id := by
  cases h with
  | committed _ _ _ _ hlatest _ => exact (hsound.latest?_eq_some_iff.1 hlatest).2.1
  | prepared _ hfirst hreplay => exact (replay_keeps hreplay).1.trans (id_of_firstDraft? hfirst)
  | untouched _ => rfl

theorem Outcome.of_tracked (h : s.Outcome stored now parts own d)
    (htracked : own.id ∈ trackedIds parts) :
    ∃ e, stored.log.latest? own.id = some e ∧ s.log.head < e.rev ∧ d = ⟨e, e, []⟩ := by
  cases h with
  | committed _ _ _ _ hlatest hnew => exact ⟨_, hlatest, hnew, rfl⟩
  | prepared huntracked _ _ => exact absurd htracked huntracked
  | untouched hnone =>
    obtain ⟨first, hfirst, -⟩ := exists_firstDraft htracked
    cases hnone.symm.trans hfirst

end

section

variable {s : Store} (hsound : s.log.Sound) {parts work : List Command} {st : Staging}
  (h : s.prepare parts = .ok (st, work)) (now : Instant)

include hsound h

theorem finals_of_tracked {id : StateId} (hid : id ∈ trackedIds parts) {e : State}
    (hlatest : (s.carryOut now st work).2.log.latest? id = some e) :
    (s.finals now st).get? id = some ⟨e, e, []⟩ := by
  obtain ⟨-, hstaged, -⟩ := (prepare_eq_ok_iff hsound).1 h
  have htracked := tracked_of_stageAll hstaged
  have hdrafts : ∀ id ∈ st.tracked, ∃ d, st.drafts.get? id = some d ∧ d.id = id := by
    intro id hmem
    obtain ⟨_, final, -, -, hdraft, hfid, -⟩ := draft_of_stageAll hstaged (htracked ▸ hmem)
    exact ⟨final, hdraft, hfid⟩
  have hnodup : st.tracked.Nodup := htracked ▸ nodup_trackedIds parts
  obtain ⟨f, hfinal, hin, hfid, hnew⟩ :=
    exists_settled_of_appendAll now s.log st.drafts hnodup hdrafts (htracked ▸ hid)
  have hlast := latest?_of_commit hsound (commit_of_prepare h now) hin hnew
  rw [hfid, hlatest] at hlast
  cases hlast
  exact hfinal

theorem finals_of_untracked {id : StateId} (hid : id ∉ trackedIds parts) :
    (firstDraft? id parts = none ∧ (s.finals now st).get? id = none) ∨
      ∃ first final, firstDraft? id parts = some first ∧
        s.replay first (onState id parts) = .ok final ∧
        (s.finals now st).get? id = some final := by
  obtain ⟨-, hstaged, -⟩ := (prepare_eq_ok_iff hsound).1 h
  have hkept : (s.finals now st).get? id = st.drafts.get? id := by
    rw [← tracked_of_stageAll hstaged] at hid
    exact get?_appendAll_of_notMem now s.log st.drafts hid
  have hview := (stageAll_ok hstaged).2 id
  rw [draftAfter_start] at hview
  rw [hkept]
  cases hfirst : firstDraft? id parts with
  | none =>
    rw [hfirst] at hview
    exact .inl ⟨rfl, (Except.ok.inj hview).symm⟩
  | some first =>
    rw [hfirst] at hview
    obtain ⟨final, hreplay, hfinal⟩ := Fault.map_eq_ok_iff.1 hview
    exact .inr ⟨first, final, rfl, hreplay, hfinal.symm⟩

theorem outcome_finals (own : Draft) :
    s.Outcome (s.carryOut now st work).2 now parts own
      (((s.finals now st).get? own.id).getD own) := by
  by_cases hid : own.id ∈ trackedIds parts
  · obtain ⟨first, final, e, hfirst, hreplay, hentry, hlatest, hnew⟩ :=
      entry_of_commit hsound (commit_of_prepare h now) hid
    rw [finals_of_tracked hsound h now hid hlatest]
    exact .committed hid hfirst hreplay hentry hlatest hnew
  · rcases finals_of_untracked hsound h now hid with
      ⟨hnone, hfinal⟩ | ⟨first, final, hfirst, hreplay, hfinal⟩
    · rw [hfinal]
      exact .untouched hnone
    · rw [hfinal]
      exact .prepared hid hfirst hreplay

end

section

variable {s stored : Store} (hsound : s.log.Sound) {now : Instant} {parts done : List Command}
  (h : s.commit now parts = .ok (stored, done))

include hsound h

theorem outcomes_of_commit :
    List.Forall₂ (fun c back => back.name = c.name ∧
      Option.Rel (s.Outcome stored now parts) c.draft? back.draft?) parts done := by
  obtain ⟨st, work, hprepare, hdone⟩ := commit_eq_ok_iff.1 h
  obtain ⟨-, hstaged, -⟩ := (prepare_eq_ok_iff hsound).1 hprepare
  have houtcome := outcome_finals hsound hprepare now
  have hreturned := returned_of_stageAll hstaged now
  rw [hdone] at houtcome hreturned
  refine hreturned.imp fun c back hback => ⟨hback.name, ?_⟩
  rw [hback.draft]
  cases c.draft? with
  | none => exact .none
  | some own => exact .some (houtcome own)

theorem exists_outcome_of_part {c : Command} (hc : c ∈ parts) {own : Draft}
    (hown : c.draft? = some own) : ∃ d, s.Outcome stored now parts own d := by
  obtain ⟨back, -, -, hrel⟩ := exists_of_mem_right (outcomes_of_commit hsound h).flip hc
  rw [hown] at hrel
  generalize back.draft? = d at hrel
  cases hrel with
  | some houtcome => exact ⟨_, houtcome⟩

theorem exists_outcome_of_back {back : Command} (hback : back ∈ done) {d : Draft}
    (hd : back.draft? = some d) :
    ∃ c ∈ parts, ∃ own, c.draft? = some own ∧ s.Outcome stored now parts own d := by
  obtain ⟨c, hc, -, hrel⟩ := exists_of_mem_right (outcomes_of_commit hsound h) hback
  rw [hd] at hrel
  generalize hown : c.draft? = own at hrel
  cases hrel with
  | some houtcome => exact ⟨c, hc, _, hown, houtcome⟩

theorem kinds_of_commit :
    List.Forall₂ (fun c back => back.name = c.name ∧ back.draftId? = c.draftId?) parts done := by
  have hstored := sound_of_commit hsound h
  refine (outcomes_of_commit hsound h).imp ?_
  rintro c back ⟨hname, hrel⟩
  refine ⟨hname, ?_⟩
  unfold draftId?
  generalize c.draft? = own, back.draft? = d at hrel ⊢
  cases hrel with
  | none => rfl
  | some houtcome => exact congrArg some (houtcome.id_eq hstored)

theorem settled_of_commit {back : Command} (hback : back ∈ done) (htracked : back.isTracked = true)
    {d : Draft} (hd : back.draft? = some d) :
    ∃ e, stored.log.latest? d.id = some e ∧ s.log.head < e.rev ∧ d = ⟨e, e, []⟩ := by
  obtain ⟨c, hc, hname, hid⟩ := exists_of_mem_right (kinds_of_commit hsound h) hback
  have hmem : d.id ∈ trackedIds parts := by
    refine mem_trackedIds_iff.2 ⟨c, hc, ?_⟩
    rw [← trackedId?_congr hname hid, trackedId?, if_pos htracked, hd, Option.map_some]
  obtain ⟨_, -, own, -, houtcome⟩ := exists_outcome_of_back hsound h hback hd
  have hown := houtcome.id_eq (sound_of_commit hsound h)
  rw [hown] at hmem ⊢
  exact houtcome.of_tracked hmem

end

end Store

end Workflow
