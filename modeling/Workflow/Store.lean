import Workflow.Store.Blobs
import Workflow.Store.Delays
import Workflow.Store.Log

/-!
# The store

All that lasts: the log of committed states, the delayed states and the blobs. Commits that add to
the log are announced; the number of announcements tells a watcher whether it missed one.
-/

set_option autoImplicit false

namespace Workflow

structure Store where
  log : Log
  delays : Delays
  blobs : Blobs
  announced : Nat
  deriving DecidableEq

namespace Store

def empty : Store := ⟨.empty, .empty, .empty, 0⟩

instance : Inhabited Store := ⟨empty⟩

def delay (s : Store) (state : State) (dueAt : Instant) : Store × Delayed :=
  let (delays, item) := s.delays.push state dueAt
  ({ s with delays := delays }, item)

def acknowledge (s : Store) (offset : Int) : Store :=
  { s with delays := s.delays.acknowledge offset }

/-- Stores a blob under its identity, fresh if it has none, and answers the stored revision. -/
def storeBlob (s : Store) (blob : Blob) : Store × Blob :=
  let (blobs, blob) := s.blobs.store blob
  ({ s with blobs := blobs }, blob)

end Store

end Workflow
