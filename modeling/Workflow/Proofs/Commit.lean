import Workflow.Proofs.Run
import Workflow.Proofs.Staging

/-!
# What a commit does

A commit succeeds exactly if its bundle can be prepared (`Store.Prepares`) and every tracked state
is at the revision that its first draft expects. It then adds one entry for each tracked state. A
commit that fails changes neither the store nor the bundle of its caller, and a conflict names
exactly the states that were not at the expected revision (`Store.stale`).
-/

set_option autoImplicit false

namespace Workflow

namespace Command

/-- The revision that a bundle expects a state to be at: that of the first draft it has for it. -/
def expectedRev (id : StateId) (parts : List Command) : Int :=
  (firstDraft? id parts).elim 0 Draft.expectedRev

theorem validateParts_eq_ok_iff {parts : List Command} :
    validateParts parts = .ok () ↔
      ∀ c ∈ parts, c.barredFromBundle = false ∧ c.isAnonymous = false := by
  induction parts with
  | nil => simp [validateParts]
  | cons c rest ih =>
    unfold validateParts
    rw [List.forall_mem_cons]
    cases c.barredFromBundle <;> cases c.isAnonymous <;> simp [ih]

theorem validateBundle_eq_ok_iff {parts : List Command} :
    validateBundle parts = .ok () ↔
      parts ≠ [] ∧ ∀ c ∈ parts, c.barredFromBundle = false ∧ c.isAnonymous = false := by
  rw [← validateParts_eq_ok_iff]
  unfold validateBundle
  cases parts <;> simp

end Command

namespace Store

open Command

/-- The bundle is well formed, all that it looks up is there, and all local effects apply. -/
structure Prepares (s : Store) (parts : List Command) : Prop where
  valid : validateBundle parts = .ok ()
  answered : ∀ c ∈ parts, s.answers c
  applied : ∀ id first, firstDraft? id parts = some first →
    ∃ final, s.replay first (onState id parts) = .ok final

/-- The tracked states of a bundle that are not at the expected revision. -/
def stale (s : Store) (parts : List Command) : List StateId :=
  (trackedIds parts).filter fun id => expectedRev id parts ≠ Log.lastRev s.log.entries id

theorem isConflict_of_validateParts {parts : List Command} {fault : Fault}
    (h : validateParts parts = .error fault) : fault.isConflict = false := by
  induction parts with
  | nil => cases h
  | cons c rest ih =>
    unfold validateParts at h
    split at h
    · cases h
      rfl
    · split at h
      · cases h
        rfl
      · exact ih h

theorem isConflict_of_validateBundle {parts : List Command} {fault : Fault}
    (h : validateBundle parts = .error fault) : fault.isConflict = false := by
  unfold validateBundle at h
  split at h
  · cases h
    rfl
  · exact isConflict_of_validateParts h

/-! ### Staging a whole bundle -/

theorem draftAfter_start (s : Store) (b : Blobs) (parts : List Command) (id : StateId) :
    s.draftAfter (.start b) parts id =
      match firstDraft? id parts with
      | none => .ok none
      | some d => (s.replay d (onState id parts)).map some := rfl

theorem prepares_iff {s : Store} {parts : List Command} :
    s.Prepares parts ↔ validateBundle parts = .ok () ∧
      ∃ st work, s.stageAll (.start s.blobs) parts = .ok (st, work) := by
  constructor
  · rintro ⟨hvalid, hanswers, happlied⟩
    obtain ⟨⟨st, work⟩, hstaged⟩ := exists_stageAll (.start s.blobs) hanswers fun id => by
      rw [draftAfter_start]
      cases hfirst : firstDraft? id parts with
      | none => exact ⟨none, rfl⟩
      | some first =>
        obtain ⟨final, hfinal⟩ := happlied id first hfirst
        exact ⟨some final, by simp only [hfinal]; rfl⟩
    exact ⟨hvalid, st, work, hstaged⟩
  · rintro ⟨hvalid, st, work, hstaged⟩
    obtain ⟨hanswers, hviews⟩ := stageAll_ok hstaged
    refine ⟨hvalid, hanswers, fun id first hfirst => ?_⟩
    have hview := hviews id
    rw [draftAfter_start, hfirst] at hview
    cases hfinal : s.replay first (onState id parts) with
    | error fault =>
      simp only [hfinal] at hview
      cases hview
    | ok final => exact ⟨final, rfl⟩

theorem mem_trackedIds_iff {id : StateId} {parts : List Command} :
    id ∈ trackedIds parts ↔ ∃ c ∈ parts, c.trackedId? = some id := by
  rw [trackedIds, List.mem_eraseDups, List.mem_filterMap]

theorem nodup_eraseDups (ids : List StateId) : ids.eraseDups.Nodup := by
  induction hlen : ids.length using Nat.strong_induction_on generalizing ids with
  | _ n ih =>
    cases ids with
    | nil => exact List.nodup_nil
    | cons id rest =>
      rw [List.eraseDups_cons, List.nodup_cons]
      refine ⟨by simp, ih _ ?_ _ rfl⟩
      have hle := List.length_filter_le (! · == id) rest
      rw [List.length_cons] at hlen
      omega

theorem nodup_trackedIds (parts : List Command) : (trackedIds parts).Nodup :=
  nodup_eraseDups _

theorem exists_firstDraft {id : StateId} {parts : List Command} (h : id ∈ trackedIds parts) :
    ∃ first, firstDraft? id parts = some first ∧ first.id = id := by
  obtain ⟨c, hc, htracked⟩ := mem_trackedIds_iff.1 h
  have hworks := worksOn_of_trackedId? htracked
  cases hfind : parts.find? (worksOn id) with
  | none => exact absurd hworks (List.find?_eq_none.1 hfind c hc)
  | some c₀ =>
    obtain ⟨-, first, hfirst, hid⟩ := worksOn_iff.1 (List.find?_some hfind)
    exact ⟨first, by rw [firstDraft?, hfind, Option.bind_some, hfirst], hid⟩

section

variable {s : Store} {parts work : List Command} {st : Staging}
  (h : s.stageAll (.start s.blobs) parts = .ok (st, work))

include h

theorem tracked_of_stageAll : st.tracked = trackedIds parts := by
  rw [tracked_stageAll h]
  simp [Staging.start, trackedIds]

/-- The draft staged for a tracked state: its first draft with all effects on it. -/
theorem draft_of_stageAll {id : StateId} (hid : id ∈ trackedIds parts) :
    ∃ first final, firstDraft? id parts = some first ∧
      s.replay first (onState id parts) = .ok final ∧ st.drafts.get? id = some final ∧
      final.id = id ∧ final.committed = first.committed := by
  obtain ⟨first, hfirst, hfid⟩ := exists_firstDraft hid
  have hview := (stageAll_ok h).2 id
  rw [draftAfter_start, hfirst] at hview
  cases hfinal : s.replay first (onState id parts) with
  | error fault =>
    simp only [hfinal] at hview
    cases hview
  | ok final =>
    simp only [hfinal] at hview
    obtain ⟨hkeep, hcommitted⟩ := replay_keeps hfinal
    exact ⟨first, final, hfirst, hfinal, (Except.ok.inj hview).symm, hkeep.trans hfid, hcommitted⟩

theorem conflicts_of_stageAll (hsound : s.log.Sound) : s.conflicts st = s.stale parts := by
  unfold conflicts stale
  rw [tracked_of_stageAll h]
  apply List.filter_congr
  intro id hid
  obtain ⟨first, final, hfirst, -, hdraft, -, hcommitted⟩ := draft_of_stageAll h hid
  rw [Staging.expectedRev, hdraft, expectedRev, hfirst, hsound.latestRev_eq id]
  simp only [Option.elim_some, Draft.expectedRev, hcommitted]
  rfl

end

/-! ### Outcomes -/

theorem requireNoConflict_eq_ok_iff {ids : List StateId} :
    requireNoConflict ids = .ok () ↔ ids = [] := by
  cases ids <;> simp [requireNoConflict]

theorem prepare_eq_ok_iff {s : Store} (hsound : s.log.Sound) {parts work : List Command}
    {st : Staging} :
    s.prepare parts = .ok (st, work) ↔
      validateBundle parts = .ok () ∧ s.stageAll (.start s.blobs) parts = .ok (st, work) ∧
        s.stale parts = [] := by
  unfold prepare
  constructor
  · intro h
    obtain ⟨_, hvalid, hrest⟩ := Fault.bind_eq_ok_iff.1 h
    obtain ⟨⟨st₁, work₁⟩, hstaged, hlast⟩ := Fault.bind_eq_ok_iff.1 hrest
    obtain ⟨_, hcheck, hret⟩ := Fault.bind_eq_ok_iff.1 hlast
    cases hret
    rw [conflicts_of_stageAll hstaged hsound, requireNoConflict_eq_ok_iff] at hcheck
    exact ⟨hvalid, hstaged, hcheck⟩
  · rintro ⟨hvalid, hstaged, hstale⟩
    have hcheck : requireNoConflict (s.conflicts st) = .ok () := by
      rw [conflicts_of_stageAll hstaged hsound, hstale]
      rfl
    rw [hvalid, hstaged]
    change (requireNoConflict (s.conflicts st) >>= fun _ => _) = _
    rw [hcheck]
    rfl

theorem prepare_eq_conflict_iff {s : Store} (hsound : s.log.Sound) {parts : List Command}
    {ids : List StateId} :
    s.prepare parts = .error (.conflict ids) ↔
      s.Prepares parts ∧ ids = s.stale parts ∧ ids ≠ [] := by
  rw [prepares_iff]
  unfold prepare
  constructor
  · intro h
    rcases Fault.bind_eq_error_iff.1 h with hvalid | ⟨_, hvalid, hrest⟩
    · exact absurd (isConflict_of_validateBundle hvalid) (by simp [Fault.isConflict])
    · rcases Fault.bind_eq_error_iff.1 hrest with hstage | ⟨⟨st, work⟩, hstaged, hlast⟩
      · exact absurd (isConflict_of_stageAll hstage) (by simp [Fault.isConflict])
      · rcases Fault.bind_eq_error_iff.1 hlast with hcheck | ⟨_, -, hret⟩
        · rw [conflicts_of_stageAll hstaged hsound, requireNoConflict] at hcheck
          split at hcheck
          · cases hcheck
          next hne =>
            cases hcheck
            exact ⟨⟨hvalid, st, work, hstaged⟩, rfl, by simpa using hne⟩
        · cases hret
  · rintro ⟨⟨hvalid, st, work, hstaged⟩, rfl, hne⟩
    have hcheck : requireNoConflict (s.conflicts st) = .error (.conflict (s.stale parts)) := by
      rw [conflicts_of_stageAll hstaged hsound, requireNoConflict, if_neg (by simpa using hne)]
    rw [hvalid, hstaged]
    change (requireNoConflict (s.conflicts st) >>= fun _ => _) = _
    rw [hcheck]
    rfl

/-! ### Entries -/

theorem exists_added_of_appendAll (now : Instant) (l : Log) (drafts : SortedMap StateId Draft)
    {ids : List StateId} (hnodup : ids.Nodup)
    (hdrafts : ∀ id ∈ ids, ∃ d, drafts.get? id = some d ∧ d.id = id) :
    ∃ added, (appendAll now l drafts ids).1.entries = l.entries ++ added ∧
      added.map State.id = ids ∧
      ∀ (i : Nat) (id : StateId) (d : Draft), ids[i]? = some id → drafts.get? id = some d →
        added[i]? = some { d.current with
          rev := (l.entries.length : Int) + i + 1
          committedAt := some now } := by
  induction ids generalizing l drafts with
  | nil => exact ⟨[], by simp [appendAll], rfl, by simp⟩
  | cons id rest ih =>
    obtain ⟨hnotin, hrest⟩ := List.nodup_cons.1 hnodup
    obtain ⟨d, hd, hid⟩ := hdrafts id List.mem_cons_self
    have hold {other : StateId} (hmem : other ∈ rest) (settled : Draft) :
        (drafts.insert id settled).get? other = drafts.get? other :=
      SortedMap.get?_insert_of_ne _ _ fun heq => hnotin (heq ▸ hmem)
    let stored := entryOf l now d.current
    obtain ⟨added, hentries, hids, hadded⟩ :=
      ih (l.append stored) (drafts.insert id (d.settle stored)) hrest fun other hmem => by
        rw [hold hmem]
        exact hdrafts other (List.mem_cons_of_mem _ hmem)
    refine ⟨stored :: added, ?_, ?_, ?_⟩
    · rw [appendAll, hd]
      change (appendAll now (l.append stored) _ rest).1.entries = _
      rw [hentries, Log.entries_append, List.append_assoc]
      rfl
    · rw [List.map_cons, hids]
      exact congrArg (· :: rest) hid
    · intro i other e hi he
      cases i with
      | zero =>
        cases hi
        rw [hd] at he
        cases he
        simp [stored, entryOf, Log.nextRev, Log.head]
      | succ i =>
        rw [List.getElem?_cons_succ] at hi
        have hmem := List.mem_of_getElem? hi
        have hnext := hadded i other e hi ((hold hmem _).trans he)
        have hrev : ((l.append stored).entries.length : Int) + i + 1 =
            (l.entries.length : Int) + ((i + 1 : Nat) : Int) + 1 := by
          rw [Log.entries_append, List.length_append, List.length_singleton]
          omega
        rw [List.getElem?_cons_succ, hnext, hrev]

/-! ### Commits -/

theorem stale_eq_nil_iff {s : Store} {parts : List Command} :
    s.stale parts = [] ↔
      ∀ id ∈ trackedIds parts, expectedRev id parts = Log.lastRev s.log.entries id := by
  simp [stale, List.filter_eq_nil_iff]

theorem exists_commit_ok_iff {s : Store} (hsound : s.log.Sound) {now : Instant}
    {parts : List Command} :
    (∃ stored done, s.commit now parts = .ok (stored, done)) ↔
      s.Prepares parts ∧ s.stale parts = [] := by
  rw [prepares_iff]
  constructor
  · rintro ⟨stored, done, h⟩
    obtain ⟨st, work, hprepare, -⟩ := commit_eq_ok_iff.1 h
    obtain ⟨hvalid, hstaged, hstale⟩ := (prepare_eq_ok_iff hsound).1 hprepare
    exact ⟨⟨hvalid, st, work, hstaged⟩, hstale⟩
  · rintro ⟨⟨hvalid, st, work, hstaged⟩, hstale⟩
    have hprepare := (prepare_eq_ok_iff hsound).2 ⟨hvalid, hstaged, hstale⟩
    exact ⟨_, _, commit_eq_ok_iff.2 ⟨st, work, hprepare, rfl⟩⟩

/-- A commit adds one entry for each tracked state. -/
theorem exists_added_of_commit {s stored : Store} (hsound : s.log.Sound) {now : Instant}
    {parts done : List Command} (h : s.commit now parts = .ok (stored, done)) :
    ∃ added, stored.log.entries = s.log.entries ++ added ∧
      added.map State.id = trackedIds parts ∧
      ∀ (i : Nat) (id : StateId), (trackedIds parts)[i]? = some id →
        ∃ first final, firstDraft? id parts = some first ∧
          s.replay first (onState id parts) = .ok final ∧
          added[i]? = some { final.current with
            rev := (s.log.entries.length : Int) + i + 1
            committedAt := some now } := by
  obtain ⟨st, work, hprepare, hdone⟩ := commit_eq_ok_iff.1 h
  obtain ⟨-, hstaged, -⟩ := (prepare_eq_ok_iff hsound).1 hprepare
  have hlog : stored.log = (appendAll now s.log st.drafts (trackedIds parts)).1 := by
    rw [← tracked_of_stageAll hstaged, ← log_carryOut s now st work, hdone]
  obtain ⟨added, hentries, hids, hadded⟩ :=
    exists_added_of_appendAll now s.log st.drafts (nodup_trackedIds parts)
      fun id hid => by
        obtain ⟨_, final, -, -, hdraft, hfid, -⟩ := draft_of_stageAll hstaged hid
        exact ⟨final, hdraft, hfid⟩
  refine ⟨added, hlog ▸ hentries, hids, fun i id hi => ?_⟩
  obtain ⟨first, final, hfirst, hfinal, hdraft, -⟩ :=
    draft_of_stageAll hstaged (List.mem_of_getElem? hi)
  exact ⟨first, final, hfirst, hfinal, hadded i id final hi hdraft⟩

/-- In every state that a run reaches, a commit succeeds exactly if its bundle prepares and each
tracked state is at the revision that its first draft expects. It then adds one entry for each
tracked state, in the order of their first tracked parts: the first draft with the effects of all
parts on the state, under the next revision. -/
theorem commit_succeeds_iff_and_appends (requests : List Request) (now : Instant)
    (parts : List Command) :
    let s := run requests
    ((∃ stored done, s.commit now parts = .ok (stored, done)) ↔
      s.Prepares parts ∧
        ∀ id ∈ trackedIds parts, expectedRev id parts = Log.lastRev s.log.entries id) ∧
    ∀ stored done, s.commit now parts = .ok (stored, done) →
      ∃ added, stored.log.entries = s.log.entries ++ added ∧
        added.map State.id = trackedIds parts ∧
        ∀ (i : Nat) (id : StateId), (trackedIds parts)[i]? = some id →
          ∃ first final, firstDraft? id parts = some first ∧
            s.replay first (onState id parts) = .ok final ∧
            added[i]? = some { final.current with
              rev := (s.log.entries.length : Int) + i + 1
              committedAt := some now } := by
  intro s
  have hsound : s.log.Sound := sound_run requests
  refine ⟨?_, fun stored done h => exists_added_of_commit hsound h⟩
  rw [exists_commit_ok_iff hsound, stale_eq_nil_iff]

/-- In every state that a run reaches, a commit that fails leaves the store and the bundle of its
caller as they were. A conflict names each stale state once, in the order of their first tracked
parts. -/
theorem failed_commit_keeps_everything (requests : List Request) (now : Instant)
    (parts after : List Command) (stored : Store) (fault : Fault)
    (h : (Transaction.commit now).run.run (parts, run requests) = (.error fault, after, stored)) :
    after = parts ∧ stored = run requests ∧
      ∀ ids, fault = .conflict ids → ids.Nodup ∧ ids ≠ [] ∧
        ids = (trackedIds parts).filter fun id =>
          expectedRev id parts ≠ Log.lastRev (run requests).log.entries id := by
  rw [Transaction.run_commit] at h
  cases hprepare : (run requests).prepare parts with
  | error reported =>
    rw [hprepare] at h
    cases h
    refine ⟨rfl, rfl, ?_⟩
    rintro ids rfl
    obtain ⟨-, hids, hne⟩ := (prepare_eq_conflict_iff (sound_run requests)).1 hprepare
    refine ⟨?_, hne, hids⟩
    rw [hids]
    exact (nodup_trackedIds parts).filter _
  | ok staged =>
    rw [hprepare] at h
    cases h

/-- Two states are created, then a bundle expects both of them to be new. -/
theorem failed_commit_keeps_everything_of_stale :
    let a : Command := .keep (.ofState (.new ⟨"a"⟩))
    let b : Command := .keep (.ofState (.new ⟨"b"⟩))
    let requests : List Request := [.commit default [a, b]]
    let parts := [b, .keep (.ofState (.new ⟨"c"⟩)), a]
    (Transaction.commit default).run.run (parts, run requests) =
        (.error (.conflict [⟨"b"⟩, ⟨"a"⟩]), parts, run requests) ∧
      (trackedIds parts).filter (fun id =>
        expectedRev id parts ≠ Log.lastRev (run requests).log.entries id) = [⟨"b"⟩, ⟨"a"⟩] := by
  intro a b requests parts
  have h : (Transaction.commit default).run.run (parts, run requests) =
      (.error (.conflict [⟨"b"⟩, ⟨"a"⟩]), parts, run requests) := rfl
  have hconflict := (failed_commit_keeps_everything requests default parts parts (run requests)
    (.conflict [⟨"b"⟩, ⟨"a"⟩]) h).2.2 [⟨"b"⟩, ⟨"a"⟩] rfl
  exact ⟨h, hconflict.2.2.symm⟩

end Store

end Workflow
