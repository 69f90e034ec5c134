import Workflow.Proofs.Effect
import Workflow.Proofs.Log
import Workflow.Store.Commit

/-!
# Transactions

A commit consists of a part that may fail and only reads (`Store.prepare`), and a part that changes
the store and the bundle and never fails (`Store.carryOut`). The second part keeps the log sound.
-/

set_option autoImplicit false

namespace Workflow

namespace Store

/-- What may fail in a commit: the check of the bundle, staging its parts, the check for
conflicts. -/
def prepare (s : Store) (parts : List Command) : Except Fault (Staging × List Command) := do
  Command.validateBundle parts
  let (st, work) ← s.stageAll (.start s.blobs) parts
  requireNoConflict (s.conflicts st)
  return (st, work)

/-- What a commit changes once its parts are staged. -/
def carryOut (s : Store) (now : Instant) (st : Staging) (work : List Command) :
    List Command × Store :=
  let (log, drafts) := appendAll now s.log st.drafts st.tracked
  let (delays, done) := concludeAll now drafts s.delays work
  let blobs := st.writes.foldl Blobs.push { s.blobs with issued := st.issued }
  (done, ⟨log, delays, blobs, s.announced + if st.tracked.isEmpty then 0 else 1⟩)

theorem log_carryOut (s : Store) (now : Instant) (st : Staging) (work : List Command) :
    (s.carryOut now st work).2.log = (appendAll now s.log st.drafts st.tracked).1 := rfl

end Store

open Effect in
theorem Transaction.run_commit (s : Store) (now : Instant) (parts : List Command) :
    (Transaction.commit now).run.run (parts, s) =
      match s.prepare parts with
      | .error fault => (.error fault, parts, s)
      | .ok (st, work) => (.ok (), s.carryOut now st work) := by
  unfold Transaction.commit Store.prepare
  simp only [run_bind, run_get, run_settle]
  cases Command.validateBundle parts with
  | error fault => rfl
  | ok _ =>
    simp only [bind, Except.bind, pure, Except.pure]
    cases s.stageAll (.start s.blobs) parts with
    | error fault => rfl
    | ok staged =>
      obtain ⟨st, work⟩ := staged
      simp only
      cases requireNoConflict (s.conflicts st) with
      | error fault => rfl
      | ok _ =>
        simp only [changeLog, changeBlobs, changeDelays, handBack, announce, run_modify,
          run_modifyGet, Store.carryOut]
        cases st.tracked.isEmpty with
        | true => rfl
        | false => rfl

namespace Store

theorem commit_eq_ok_iff {s stored : Store} {now : Instant} {parts done : List Command} :
    s.commit now parts = .ok (stored, done) ↔
      ∃ st work, s.prepare parts = .ok (st, work) ∧ s.carryOut now st work = (done, stored) := by
  unfold commit
  rw [Transaction.run_commit]
  cases s.prepare parts with
  | error fault => simp
  | ok staged =>
    obtain ⟨st, work⟩ := staged
    constructor
    · intro h
      cases h
      exact ⟨st, work, rfl, rfl⟩
    · rintro ⟨st, work, hst, hdone⟩
      cases hst
      simp only [hdone]

theorem commit_of_prepare {s : Store} {parts work : List Command} {st : Staging}
    (h : s.prepare parts = .ok (st, work)) (now : Instant) :
    s.commit now parts = .ok ((s.carryOut now st work).2, (s.carryOut now st work).1) :=
  commit_eq_ok_iff.2 ⟨st, work, h, rfl⟩

theorem log_of_commit {s stored : Store} {now : Instant} {parts done : List Command}
    (h : s.commit now parts = .ok (stored, done)) :
    ∃ drafts ids, stored.log = (appendAll now s.log drafts ids).1 := by
  obtain ⟨st, work, -, hdone⟩ := commit_eq_ok_iff.1 h
  exact ⟨st.drafts, st.tracked, by rw [← log_carryOut s now st work, hdone]⟩

theorem commit_eq_error_iff {s : Store} {now : Instant} {parts : List Command} {fault : Fault} :
    s.commit now parts = .error fault ↔ s.prepare parts = .error fault := by
  unfold commit
  rw [Transaction.run_commit]
  cases s.prepare parts with
  | error other => simp
  | ok staged => simp

/-! ### The log -/

theorem prefix_appendAll (now : Instant) (l : Log) (drafts : SortedMap StateId Draft)
    (ids : List StateId) : l.entries <+: (appendAll now l drafts ids).1.entries := by
  induction ids generalizing l drafts with
  | nil => exact List.prefix_rfl
  | cons id ids ih =>
    unfold appendAll
    cases drafts.get? id with
    | none => exact ih l drafts
    | some d =>
      have hone : l.entries <+: (l.append (entryOf l now d.current)).entries :=
        List.prefix_append _ _
      exact hone.trans (ih _ _)

theorem sound_appendAll (now : Instant) {l : Log} (h : l.Sound) (drafts : SortedMap StateId Draft)
    (ids : List StateId) : (appendAll now l drafts ids).1.Sound := by
  induction ids generalizing l drafts with
  | nil => exact h
  | cons id ids ih =>
    unfold appendAll
    cases drafts.get? id with
    | none => exact ih h drafts
    | some d => exact ih (h.append rfl rfl) _

theorem sound_of_commit {s stored : Store} (hs : s.log.Sound) {now : Instant}
    {parts done : List Command} (h : s.commit now parts = .ok (stored, done)) :
    stored.log.Sound := by
  obtain ⟨drafts, ids, hlog⟩ := log_of_commit h
  exact hlog ▸ sound_appendAll now hs drafts ids

end Store

end Workflow
