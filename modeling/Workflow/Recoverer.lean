import Workflow.Lease
import Workflow.Settings

/-!
# Recovery

A recoverer looks for states whose execution got stuck. It reads on in the log and tracks every
state that is neither ended nor paused, until its next revision; a state that stays too long is
tried again, a limited number of times. The watermark, up to which all is settled, is kept in the
meta state of the lease.
-/

set_option autoImplicit false

namespace Workflow

/-- A state that may be stuck. -/
structure Stuck where
  state : State
  retryAt : Instant

structure Recoverer where
  lease : Lease
  sinceRev : Int
  headRev : Int
  tracked : SortedMap StateId Stuck
  added : Nat
  completed : Nat
  retried : Nat
  dropped : Nat

namespace Recoverer

def new (c : RecovererSettings) : Recoverer := ⟨.new c.metaId c.holder, 0, 0, ∅, 0, 0, 0, 0⟩

def storedWatermark (r : Recoverer) : Int :=
  ((r.lease.known.current.annotations.get? Mark.recoverySinceRev).bind
    fun v => Numeral.int64? v.toList).getD 0

/-- The recoverer starting again from the watermark in the meta state. -/
def reset (r : Recoverer) : Recoverer :=
  { r with tracked := ∅, sinceRev := r.storedWatermark, headRev := r.storedWatermark }

/-- The least number of a list, or the default if it is empty. -/
def least (default : Int) : List Int → Int
  | [] => default
  | n :: rest => rest.foldl min n

/-- The revision up to which all is settled. -/
def watermark (r : Recoverer) : Int :=
  least r.sinceRev (r.tracked.values.map (·.state.rev - 1))

def noteWatermark (rev : Int) (d : Draft) : Draft := d.annotate Mark.recoverySinceRev (toString rev)

def onLease {α : Type} (x : Work Lease α) : Work Recoverer α :=
  Work.within lease (fun r l => { r with lease := l }) x

def start (stale : Span) : Work Recoverer Unit := do
  onLease (Lease.acquire stale (noteWatermark 0))
  Work.change reset

/-! ### Reading on -/

/-- Takes up an entry that recovery looks after. -/
def track (c : RecovererSettings) (r : Recoverer) (s : State) : Recoverer :=
  let r := { r with headRev := s.rev }
  if s.isEnded || s.isPaused then
    { r with tracked := r.tracked.erase s.id, completed := r.completed + 1 }
  else
    match s.committedAt, c.retryAfter? s.retryAfter? with
    | some committedAt, some after =>
      { r with tracked := r.tracked.insert s.id ⟨s, committedAt + after⟩, added := r.added + 1 }
    | _, _ => r

/-- Takes up an entry of the log. Answers whether it shows that the lease was lost. -/
def takeEntry (c : RecovererSettings) (r : Recoverer) (s : State) : Recoverer × Bool :=
  let r := { r with sinceRev := s.rev }
  if s.id = r.lease.metaId then
    let (lease, lost) := r.lease.observe s
    let r := { r with lease := lease }
    if lost then (r.reset, true) else (r, false)
  else if s.recoverable then (r.track c s, false)
  else (r, false)

/-- Takes up entries of the log until one shows that the lease was lost. -/
def takeEntries (c : RecovererSettings) : Recoverer → List State → Recoverer × Bool
  | r, [] => (r, false)
  | r, s :: rest =>
    match r.takeEntry c s with
    | (r, true) => (r, true)
    | (r, false) => takeEntries c r rest

/-- Reads on page by page while fewer states are tracked than may be. -/
def readOn (c : RecovererSettings) : (fuel : Nat) → Work Recoverer Unit
  | 0 => pure ()
  | fuel + 1 => do
    let r ← Work.own
    if c.maxTracked ≤ r.tracked.size then return
    let page ← Work.access
      (Repository.listStates { StateQuery.since r.sinceRev with limit := c.batchLimit })
    let (r, lost) := r.takeEntries c page.items
    Work.change fun _ => r
    if !lost && page.more then readOn c fuel

/-- Reads on in the log. A page with more to come has an entry at least, so there are no more pages
than entries. -/
def scanHead (c : RecovererSettings) : Work Recoverer Unit := do
  if (← Work.own).lease.active then
    readOn c ((← get).2.repository.store.log.entries.length + 2)

/-! ### Trying again -/

/-- Tries a state again, or ends it if it has no attempt left. That the state advanced in the
meantime is no fault. The attempt that a state says is a word of 32 bits, but its successor is taken
without a bound: what becomes of a state at attempt `4294967295` is left out. -/
def retry (c : RecovererSettings) (s : State) : Work Recoverer Unit := do
  let attempt := s.attempt + 1
  let next := (Draft.ofState s).setAttempt attempt
  if s.maxAttempts c.maxAttempts < attempt then
    if (← Work.commit? [.finish next ∅]).isSome then
      Work.change fun r => { r with dropped := r.dropped + 1 }
  else
    match ← Work.commit? [.keep next] with
    | none => pure ()
    | some parts =>
      Work.change fun r => { r with retried := r.retried + 1 }
      match (Command.bundle parts).resulting? with
      | some d => Work.launch d
      | none => pure ()

/-- Tries tracked states again. One that cannot be tried stays tracked. -/
def retryAll (c : RecovererSettings) : List (StateId × Stuck) → Work Recoverer Unit
  | [] => pure ()
  | (id, stuck) :: rest => do
    Work.change fun r => { r with tracked := r.tracked.erase id }
    try
      retry c stuck.state
    catch _ =>
      Work.change fun r => { r with tracked := r.tracked.insert id stuck }
    retryAll c rest

/-- Stores the watermark if it advanced far, if it advanced some time ago, or to confirm
the lease. -/
def storeWatermark (c : RecovererSettings) (now : Instant) : Work Recoverer Unit := do
  let r ← Work.own
  let stored := r.storedWatermark
  let next := r.watermark
  if c.commitRevGap < next - stored ∨
      next ≠ stored ∧ r.lease.hasPassed c.commitInterval now ∨
      r.lease.hasPassed c.keepalive now then
    if !(← onLease (Lease.confirm (noteWatermark next))) then
      Work.change reset

/-- Tries again all states that are due, and stores the watermark. Without the lease, tries to take
it. -/
def scanTail (c : RecovererSettings) (stale : Span) : Work Recoverer Unit := do
  let r ← Work.own
  if r.lease.active then
    let now ← Work.now
    retryAll c (r.tracked.entries.filter (·.2.retryAt ≤ now))
    storeWatermark c now
  else
    onLease Lease.refresh
    if ← onLease (Lease.takeOver stale) then
      Work.change reset

/-- Gives the lease back with the watermark, and tracks nothing any more. -/
def stop : Work Recoverer Unit := do
  let r ← Work.own
  try
    onLease (Lease.release (noteWatermark r.watermark))
  catch _ =>
    pure ()
  Work.change fun r => { r with tracked := ∅ }

end Recoverer

end Workflow
