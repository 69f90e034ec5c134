import Workflow.Fault
import Workflow.Span

/-!
# Settings

The settings of the engine, of the recoverer and of the delayer: their usual values, when they are
valid, and the spans of time that follow from them.
-/

set_option autoImplicit false

namespace Workflow

structure EngineSettings where
  /-- How often a watcher looks at the log when no commit is announced. -/
  pollInterval : Span := .ofSecs 1
  deriving DecidableEq

instance : Inhabited EngineSettings := ⟨{}⟩

structure RecovererSettings where
  metaId : StateId := ⟨"flowstate.recovery.meta"⟩
  holder : String
  headInterval : Span := .ofSecs 10
  tailInterval : Span := .ofSecs 10
  batchLimit : Nat := 100
  /-- How many states may be tracked before reading pauses. -/
  maxTracked : Nat := 10000
  /-- After how long a state is tried again if it does not say. -/
  defaultRetryAfter : Span := .ofSecs 120
  minRetryAfter : Span := .ofSecs 60
  maxRetryAfter : Span := .ofSecs 300
  maxAttempts : Nat := 3
  failoverWindow : Span := .ofSecs 300
  /-- How much longer others wait before they take the lease. -/
  failoverMargin : Span := .ofSecs 60
  /-- The watermark is stored when it advances by more revisions than this. -/
  commitRevGap : Int := 1000
  /-- The watermark is stored when it advanced and this time has passed. -/
  commitInterval : Span := .ofSecs 300
  deriving DecidableEq

structure DelayerSettings where
  metaId : StateId := ⟨"flowstate.delayer.meta"⟩
  holder : String
  horizonInterval : Span := .ofSecs 30
  horizonLookahead : Span := .ofSecs 60
  /-- How often new items behind the horizon are looked for. -/
  freshnessInterval : Span := .ofSecs 5
  freshnessLookback : Span := .ofSecs 86400
  fireInterval : Span := .ofSecs 1
  commitInterval : Span := .ofSecs 60
  /-- How many items may be tracked before reading pauses. -/
  maxTracked : Nat := 1000
  batchLimit : Nat := 500
  failoverWindow : Span := .ofSecs 300
  /-- How much longer others wait before they take the lease. -/
  failoverMargin : Span := .ofSecs 60
  deriving DecidableEq

def firstInvalid : List (Bool × Invalid) → Except Fault Unit
  | [] => .ok ()
  | (wrong, why) :: rest => if wrong then .error (.invalid why) else firstInvalid rest

namespace RecovererSettings

def validate (c : RecovererSettings) : Except Fault Unit :=
  firstInvalid [
    (c.metaId.isEmpty, .recovererMeta),
    (c.maxRetryAfter < c.minRetryAfter, .retryBounds),
    (c.headInterval.isZero || c.tailInterval.isZero, .recovererInterval)]

/-- After how long a state is tried again that asks for the given time, or for none. There is no
such time if the bounds exclude each other. -/
def retryAfter? (c : RecovererSettings) (requested : Option Span) : Option Span :=
  (requested.getD c.defaultRetryAfter).clamp? c.minRetryAfter c.maxRetryAfter

/-- The age from which a lease of another holder has expired, if it can be represented. -/
def staleAfter? (c : RecovererSettings) : Option Span := c.failoverWindow.add? c.failoverMargin

def keepalive (c : RecovererSettings) : Span := c.failoverWindow.half

end RecovererSettings

namespace DelayerSettings

def validate (c : DelayerSettings) : Except Fault Unit :=
  firstInvalid [
    (c.metaId.isEmpty, .delayerMeta),
    (c.fireInterval.isZero || c.horizonInterval.isZero || c.freshnessInterval.isZero,
      .delayerInterval),
    (c.maxTracked == 0, .delayerCapacity)]

/-- The age from which a lease of another holder has expired, if it can be represented. -/
def staleAfter? (c : DelayerSettings) : Option Span := c.failoverWindow.add? c.failoverMargin

def keepalive (c : DelayerSettings) : Span := c.failoverWindow.half

end DelayerSettings

/-- Settings of an engine with its background components. -/
structure ServiceSettings where
  engine : EngineSettings
  recoverer : RecovererSettings
  delayer : DelayerSettings
  deriving DecidableEq

end Workflow
