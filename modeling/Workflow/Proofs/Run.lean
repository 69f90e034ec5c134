import Workflow.Proofs.Transaction

/-!
# Runs of a store

A run serves calls one after the other, starting from the empty store; a call may fail. Every log
that a run reaches is sound, and every call only adds to the log.
-/

set_option autoImplicit false

namespace Workflow

namespace Store

/-- A call that may change a store. -/
inductive Request where
  | commit (now : Instant) (parts : List Command)
  | delay (state : State) (dueAt : Instant)
  | acknowledge (offset : Int)
  | storeBlob (blob : Blob)

/-- The store after a call, whether the call succeeds or fails. -/
def serve (s : Store) : Request → Store
  | .commit now parts => ((Transaction.commit now).run.run (parts, s)).2.2
  | .delay state dueAt => (s.delay state dueAt).1
  | .acknowledge offset => s.acknowledge offset
  | .storeBlob blob => (s.storeBlob blob).1

/-- The store after some calls, starting from the empty store. -/
def run (requests : List Request) : Store := requests.foldl serve empty

theorem run_append (requests more : List Request) :
    run (requests ++ more) = more.foldl serve (run requests) :=
  List.foldl_append

theorem run_append_singleton (requests : List Request) (r : Request) :
    run (requests ++ [r]) = (run requests).serve r :=
  run_append requests [r]

theorem serve_commit_of_ok {s stored : Store} {now : Instant} {parts done : List Command}
    (h : s.commit now parts = .ok (stored, done)) : s.serve (.commit now parts) = stored := by
  obtain ⟨st, work, hst, hdone⟩ := commit_eq_ok_iff.1 h
  rw [serve, Transaction.run_commit, hst]
  exact congrArg Prod.snd hdone

theorem serve_commit_of_error {s : Store} {now : Instant} {parts : List Command} {fault : Fault}
    (h : s.commit now parts = .error fault) : s.serve (.commit now parts) = s := by
  rw [serve, Transaction.run_commit, commit_eq_error_iff.1 h]

theorem log_serve (s : Store) (r : Request) :
    (s.serve r).log = s.log ∨
      ∃ now parts done, r = .commit now parts ∧ s.commit now parts = .ok (s.serve r, done) := by
  cases r with
  | commit now parts =>
    cases hcommit : s.commit now parts with
    | error fault => exact .inl (congrArg log (serve_commit_of_error hcommit))
    | ok stored =>
      obtain ⟨stored, done⟩ := stored
      exact .inr ⟨now, parts, done, rfl, by rw [serve_commit_of_ok hcommit, hcommit]⟩
  | delay state dueAt => exact .inl rfl
  | acknowledge offset => exact .inl rfl
  | storeBlob blob => exact .inl rfl

theorem prefix_serve (s : Store) (r : Request) : s.log.entries <+: (s.serve r).log.entries := by
  rcases log_serve s r with h | ⟨now, parts, done, -, h⟩
  · rw [h]
  · obtain ⟨drafts, ids, hlog⟩ := log_of_commit h
    rw [hlog]
    exact prefix_appendAll now s.log drafts ids

theorem sound_serve {s : Store} (h : s.log.Sound) (r : Request) : (s.serve r).log.Sound := by
  rcases log_serve s r with hlog | ⟨now, parts, done, -, hcommit⟩
  · rw [hlog]
    exact h
  · exact sound_of_commit h hcommit

theorem sound_foldl_serve {s : Store} (h : s.log.Sound) (requests : List Request) :
    (requests.foldl serve s).log.Sound := by
  induction requests generalizing s with
  | nil => exact h
  | cons r requests ih => exact ih (sound_serve h r)

theorem prefix_foldl_serve (s : Store) (requests : List Request) :
    s.log.entries <+: (requests.foldl serve s).log.entries := by
  induction requests generalizing s with
  | nil => exact List.prefix_rfl
  | cons r requests ih => exact (prefix_serve s r).trans (ih (s.serve r))

theorem sound_run (requests : List Request) : (run requests).log.Sound :=
  sound_foldl_serve Log.sound_empty requests

theorem prefix_run (requests more : List Request) :
    (run requests).log.entries <+: (run (requests ++ more)).log.entries := by
  rw [run_append]
  exact prefix_foldl_serve _ more

/-- Position, revision and index of the log agree in every state that a run reaches, and calls only
append. So revisions are contiguous over all states, increase strictly for each of them, and an
entry is the only one of its revision from then on. -/
theorem append_only_revisioned_log (requests : List Request) :
    let l := (run requests).log
    (∀ (p : Nat) (e : State), l.entries[p]? = some e →
      e.rev = (p : Int) + 1 ∧ e.committedAt.isSome) ∧
    (∀ id, l.latest.contains id = true ↔ id ∈ l.entries.map State.id) ∧
    (∀ id p, l.latest.get? id = some p → Log.LastAt l.entries id p) ∧
    (∀ r, l.entries <+: ((run requests).serve r).log.entries) ∧
    l.entries.map State.rev = (List.range l.entries.length).map (Nat.cast · + 1) ∧
    (∀ id, (l.entries.filter (·.id = id)).Pairwise fun e f => e.rev < f.rev) ∧
    (∀ more rev e, l.get? rev = some e → (run (requests ++ more)).log.get? rev = some e) := by
  intro l
  have h : l.Sound := sound_run requests
  refine ⟨fun p e he => ⟨h.numbered p e he, h.dated p e he⟩, h.contains_iff,
    fun id p hp => (h.indexed id p).1 hp, prefix_serve (run requests), h.revs,
    fun id => h.rev_lt.filter _, ?_⟩
  intro more rev e he
  exact Log.get?_mono (prefix_run requests more) he

end Store

end Workflow
