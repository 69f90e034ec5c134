import Workflow.State
import Workflow.Span.Text
import Workflow.Instant.Text

/-!
# Marks

The annotations that the engine and its background components write and read: marks of the life
cycle on transitions, settings of recovery, times of delays, and the watermarks and holder of a
lease.
-/

set_option autoImplicit false

namespace Workflow

namespace Mark

/-- The mark of the life cycle. -/
def lifecycle : String := "flowstate.state"

def paused : String := "paused"

def resumed : String := "resumed"

def ended : String := "ended"

/-- Says `false` on states that recovery leaves alone. -/
def recoveryEnabled : String := "flowstate.recovery.enabled"

/-- The number of the attempt that a transition belongs to. -/
def recoveryAttempt : String := "flowstate.recovery.attempt"

/-- How many attempts a state asks for. -/
def recoveryMaxAttempts : String := "flowstate.recovery.max_attempts"

/-- After how long a state asks for another attempt. -/
def recoveryRetryAfter : String := "flowstate.recovery.retry_after"

def recoverySinceRev : String := "flowstate.recovery.since_rev"

/-- When a delayed state is due. -/
def delayAt : String := "flowstate.delay.at"

/-- By how long a state was delayed. -/
def delayDuration : String := "flowstate.delay.duration"

/-- Whether a delayed state is committed when it is due. -/
def delayCommit : String := "flowstate.delay.commit"

/-- The watermark of the delayer: from when on it has to scan. -/
def delayerSince : String := "flowstate.delayer.since"

/-- The watermark of the delayer: after which offset it has to scan. -/
def delayerOffset : String := "flowstate.delayer.offset"

/-- Who holds a lease; empty when nobody does. -/
def leaseHolder : String := "flowstate.lease.holder"

/-- The note that holds a stacked draft unless another one is named. -/
def stacked : String := "flowstate.stacked"

end Mark

namespace State

def isPaused (s : State) : Bool := s.transition.note? Mark.lifecycle == some Mark.paused

def isResumed (s : State) : Bool := s.transition.note? Mark.lifecycle == some Mark.resumed

def isEnded (s : State) : Bool := s.transition.note? Mark.lifecycle == some Mark.ended

/-- Whether recovery looks after the state. -/
def recoverable (s : State) : Bool := s.note? Mark.recoveryEnabled != some "false"

/-- The attempt that the current transition belongs to; `0` if it says none. -/
def attempt (s : State) : Nat :=
  ((s.transition.note? Mark.recoveryAttempt).bind fun v => Numeral.word32? v.toList).getD 0

def maxAttempts (s : State) (default : Nat) : Nat :=
  ((s.note? Mark.recoveryMaxAttempts).bind fun v => Numeral.word32? v.toList).getD default

def retryAfter? (s : State) : Option Span := (s.note? Mark.recoveryRetryAfter).bind Span.parse?

/-- Who holds the lease that the state stands for; empty when nobody does. -/
def holder (s : State) : String := (s.annotations.get? Mark.leaseHolder).getD ""

end State

namespace Draft

def disableRecovery (d : Draft) : Draft := d.annotate Mark.recoveryEnabled "false"

/-- Numbers the attempt that the current transition belongs to. -/
def setAttempt (d : Draft) (n : Nat) : Draft :=
  d.update fun s => { s with transition := s.transition.annotate Mark.recoveryAttempt (toString n) }

def setMaxAttempts (d : Draft) (n : Nat) : Draft := d.annotate Mark.recoveryMaxAttempts (toString n)

def setRetryAfter (d : Draft) (after : Span) : Draft :=
  d.annotate Mark.recoveryRetryAfter after.toText

end Draft

end Workflow
