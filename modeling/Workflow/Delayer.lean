import Workflow.Lease
import Workflow.Settings

/-!
# Firing delayed states

A delayer continues delayed states when they are due. It moves a horizon ahead of the time and reads
the items before it; behind the horizon it looks for items that were put off since. A due item is
committed, unless it asks not to be, then acknowledged and executed. The watermark is kept in the
meta state of the lease.
-/

set_option autoImplicit false

namespace Workflow

structure Delayer where
  lease : Lease
  since : Instant
  /-- The largest offset that was seen behind the horizon. -/
  offset : Int
  tracked : SortedMap Int Delayed
  fired : Nat
  /-- How many items were dropped because their state had advanced. -/
  skipped : Nat

namespace Delayer

def new (c : DelayerSettings) : Delayer := ⟨.new c.metaId c.holder, .epoch, 0, ∅, 0, 0⟩

def storedWatermark (d : Delayer) : Instant × Int :=
  let notes := d.lease.known.current.annotations
  (((notes.get? Mark.delayerSince).bind Instant.parse?).getD .epoch,
    ((notes.get? Mark.delayerOffset).bind fun v => Numeral.int64? v.toList).getD 0)

/-- The delayer starting again from the watermark in the meta state. -/
def reset (d : Delayer) : Delayer :=
  { d with tracked := ∅, since := d.storedWatermark.1, offset := d.storedWatermark.2 }

/-- From when on, and after which offset, a new start has to read: the horizon, or before it the
first item that waits. -/
def watermark (d : Delayer) : Instant × Int :=
  ((d.tracked.values.map Delayed.dueAt).foldl Instant.min d.since, d.offset)

def noteWatermark (mark : Instant × Int) (d : Draft) : Draft :=
  (d.annotate Mark.delayerSince mark.1.format).annotate Mark.delayerOffset (toString mark.2)

def onLease {α : Type} (x : Work Lease α) : Work Delayer α :=
  Work.within lease (fun d l => { d with lease := l }) x

def start (stale : Span) : Work Delayer Unit := do
  onLease (Lease.acquire stale (noteWatermark (.epoch, 0)))
  Work.change reset

/-! ### Reading -/

def track (d : Delayer) (item : Delayed) : Delayer :=
  { d with tracked := d.tracked.insertNew item.offset item }

/-- Reads the items of a window after an offset, page by page while fewer are tracked than may be.
Answers the largest offset seen, and whether all of the window was read. -/
def pullLoop (c : DelayerSettings) (since before : Instant) :
    (fuel : Nat) → (offset : Int) → Work Delayer (Int × Bool)
  | 0, offset => pure (offset, false)
  | fuel + 1, offset => do
    if c.maxTracked ≤ (← Work.own).tracked.size then return (offset, false)
    let page ← Work.access (Repository.listDelayed { since, before, offset, limit := c.batchLimit })
    Work.change fun d => page.items.foldl track d
    let offset := page.items.foldl (fun o item => max o item.offset) offset
    if page.more then pullLoop c since before fuel offset else return (offset, true)

/-- Reads the items of a window after an offset. A page with more to come has an item at least, so
there are no more pages than items. -/
def pull (c : DelayerSettings) (since before : Instant) (offset : Int) :
    Work Delayer (Int × Bool) := do
  pullLoop c since before ((← get).2.repository.store.delays.items.size + 2) offset

/-- Moves the horizon on. Without the lease, tries to take it. -/
def scanHorizon (c : DelayerSettings) (stale : Span) : Work Delayer Unit := do
  let d ← Work.own
  if d.lease.active then
    let before := (← Work.now) + c.horizonLookahead
    if d.since < before then
      let (_, complete) ← pull c d.since before 0
      if complete then
        Work.change fun d => { d with since := before }
  else
    onLease Lease.refresh
    if ← onLease (Lease.takeOver stale) then
      Work.change reset

/-- Looks for items that were put off since the last look. The first look goes back to 1970. -/
def scanFresh (c : DelayerSettings) : Work Delayer Unit := do
  let d ← Work.own
  if d.lease.active then
    let now ← Work.now
    let since := if d.offset = 0 then Instant.epoch else now - c.freshnessLookback
    let (offset, _) ← pull c since (now + c.horizonLookahead) d.offset
    Work.change fun d => { d with offset := offset }

/-! ### Firing -/

def commits (item : Delayed) : Bool :=
  item.state.transition.note? Mark.delayCommit != some "false"

/-- Drops an item whose state has advanced. -/
def skip (item : Delayed) : Work Delayer Unit := do
  Work.access (Repository.acknowledge item.offset)
  Work.change fun d => { d with skipped := d.skipped + 1 }

/-- Acknowledges an item and executes the draft that continues it. -/
def continueWith (item : Delayed) (next : Draft) : Work Delayer Unit := do
  Work.access (Repository.acknowledge item.offset)
  Work.change fun d => { d with fired := d.fired + 1 }
  Work.launch next

def fire (item : Delayed) : Work Delayer Unit := do
  let next := Draft.ofState item.state
  if commits item then
    match ← Work.commit? [.keep next] with
    | none => skip item
    | some parts =>
      match (Command.bundle parts).resulting? with
      | some next => continueWith item next
      | none => throw (.other "commit sin ctx")
  else
    continueWith item next

/-- Fires items. One that cannot be fired stays tracked. -/
def fireAll : List Delayed → Work Delayer Unit
  | [] => pure ()
  | item :: rest => do
    try
      fire item
      Work.change fun d => { d with tracked := d.tracked.erase item.offset }
    catch _ =>
      pure ()
    fireAll rest

/-- Whether the first item is fired before the second: it is due earlier, or at the same time with a
smaller offset. -/
def firesBefore (a b : Delayed) : Bool :=
  a.dueAt < b.dueAt || (a.dueAt == b.dueAt && a.offset ≤ b.offset)

/-- The tracked items that are due, in the order of firing. -/
def due (d : Delayer) (now : Instant) : List Delayed :=
  (d.tracked.values.filter (·.dueAt ≤ now)).mergeSort firesBefore

def scanDue : Work Delayer Unit := do
  let d ← Work.own
  if d.lease.active then
    fireAll (d.due (← Work.now))

/-- Stores the watermark if it changed, or to confirm the lease. -/
def storeWatermark (c : DelayerSettings) : Work Delayer Unit := do
  let d ← Work.own
  if d.lease.active then
    let now ← Work.now
    if d.watermark ≠ d.storedWatermark ∨ d.lease.hasPassed c.keepalive now then
      if !(← onLease (Lease.confirm (noteWatermark d.watermark))) then
        Work.change reset

/-- Gives the lease back with the watermark, and tracks nothing any more. -/
def stop : Work Delayer Unit := do
  let d ← Work.own
  try
    onLease (Lease.release (noteWatermark d.watermark))
  catch _ =>
    pure ()
  Work.change fun d => { d with tracked := ∅ }

end Delayer

end Workflow
