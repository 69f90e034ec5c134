import Workflow.Marks
import Workflow.Site

/-!
# Leases

Of several components that share a log at most one is to be active. They agree by a meta state that
names the holder: it is created paused, taken over by a resumption, confirmed by every further
commit and given back with an empty holder. Whoever loses the race of a commit has lost the lease.
-/

set_option autoImplicit false

namespace Workflow

/-- The part of one component in a lease. -/
structure Lease where
  metaId : StateId
  holder : String
  known : Draft
  active : Bool
  commits : Nat

namespace Lease

def new (metaId : StateId) (holder : String) : Lease := ⟨metaId, holder, default, false, 0⟩

/-- When the meta state was last committed. -/
def lastCommit? (l : Lease) : Option Instant := l.known.committed.committedAt

/-- Whether the time since the last commit of the meta state has reached the span; it has if there
was none. -/
def hasPassed (l : Lease) (d : Span) (now : Instant) : Bool :=
  l.lastCommit?.all fun t => t + d ≤ now

/-- Commits the meta state by the command; answers whether nobody else was first. -/
def tryCommit (c : Command) : Work Lease Bool := do
  match ← Work.commit? [c] with
  | some parts =>
    Work.change fun l => { l with
      known := (Command.bundle parts).resulting?.getD default
      commits := l.commits + 1 }
    pure true
  | none => pure false

/-- Reads the meta state again. Who is not named by it does not hold the lease. -/
def refresh : Work Lease Unit := do
  let l ← Work.own
  let known ← Work.access (Repository.findState l.metaId 0)
  Work.change fun l => { l with
    known := known
    active := l.active && known.current.holder == l.holder }

/-- Takes the lease if nobody else holds it, or if its holder kept silent for the given time.
Answers whether this component holds it now. -/
def takeOver (stale : Span) : Work Lease Bool := do
  let l ← Work.own
  if l.active then return true
  let holder := l.known.current.holder
  if holder ≠ "" ∧ holder ≠ l.holder ∧ !l.hasPassed stale (← Work.now) then return false
  if ← tryCommit (.resume (l.known.annotate Mark.leaseHolder l.holder) none ∅) then
    Work.change fun l => { l with active := true }
    return true
  refresh
  return false

/-- Creates the meta state, or takes the lease if there is one already and it is to be had. -/
def acquire (stale : Span) (prepare : Draft → Draft) : Work Lease Unit := do
  let l ← Work.own
  try
    let known ← Work.access (Repository.findState l.metaId 0)
    Work.change fun l => { l with known := known }
  catch fault =>
    if !fault.isNotFound then throw fault
    let first := prepare (Draft.ofState (.new l.metaId)).disableRecovery
    if ← tryCommit (.pause (first.annotate Mark.leaseHolder l.holder) none ∅) then
      Work.change fun l => { l with active := true }
    else
      refresh
    return
  discard <| takeOver stale

/-- Commits the meta state as the holder, after a change. Answers whether this component still holds
the lease. -/
def confirm (update : Draft → Draft) : Work Lease Bool := do
  let l ← Work.own
  if !l.active then return false
  if ← tryCommit (.keep ((update l.known).annotate Mark.leaseHolder l.holder)) then return true
  Work.change fun l => { l with active := false }
  refresh
  return false

/-- Takes note of an entry of the log. Answers whether it shows that the lease was lost. -/
def observe (l : Lease) (s : State) : Lease × Bool :=
  if s.id ≠ l.metaId ∨ s.rev ≤ l.known.committed.rev then (l, false)
  else
    let lost := l.active && s.holder ≠ l.holder
    ({ l with known := .ofState s, active := l.active && !lost }, lost)

/-- Gives the lease back, after a change. -/
def release (update : Draft → Draft) : Work Lease Unit := do
  let l ← Work.own
  if !l.active then return
  Work.change fun l => { l with active := false }
  discard <| tryCommit (.pause ((update l.known).annotate Mark.leaseHolder "") none ∅)

end Lease

end Workflow
