import Workflow.Settings
import Workflow.Span.Text
import Workflow.Store.Blobs

/-!
# Settings from the environment

Settings that the variables of an environment override. A variable that is not set keeps the usual
value; a name that is blank does so as well, and any other unreadable value is an error. Holders
that are not named get fresh names.
-/

set_option autoImplicit false

namespace Workflow

abbrev Environment := SortedMap String String

namespace Environment

/-- A name; a blank one counts as not set. -/
def name (env : Environment) (key default : String) : String :=
  ((env.get? key).filter fun v => !(Text.trim v.toList).isEmpty).getD default

/-- A natural number below the bound, blanks around it allowed. -/
def natural (env : Environment) (key : String) (bound default : Nat) : Except Fault Nat :=
  match env.get? key with
  | none => .ok default
  | some raw =>
    match Numeral.natural? bound (Text.trim raw.toList) with
    | some n => .ok n
    | none => .error (.invalid (.setting key raw))

def span (env : Environment) (key : String) (default : Span) : Except Fault Span :=
  match env.get? key with
  | none => .ok default
  | some raw =>
    match Span.parse? raw with
    | some d => .ok d
    | none => .error (.invalid (.spanSetting key raw))

end Environment

/-- A fresh name for a holder of the given kind. -/
def freshHolder (kind : String) (issued : Nat) : String := s!"{kind}-{BlobId.generated issued}"

def EngineSettings.ofEnvironment (env : Environment) : Except Fault EngineSettings := do
  .ok { pollInterval := ← env.span "FLOWSTATE_WATCH_POLL_INTERVAL" (.ofSecs 1) }

/-- Settings of a recoverer from the environment; they are checked. -/
def RecovererSettings.ofEnvironment (env : Environment) : Except Fault RecovererSettings := do
  let usual : RecovererSettings := { holder := freshHolder "recoverer" 1 }
  let metaId := env.name "FLOWSTATE_RECOVERY_META_ID" usual.metaId.text
  let holder := env.name "FLOWSTATE_RECOVERY_HOLDER" usual.holder
  let attempts ← env.natural "FLOWSTATE_RECOVERY_MAX_ATTEMPTS" UInt32.size usual.maxAttempts
  let tracked ← env.natural "FLOWSTATE_RECOVERY_MAX_TRACKED" UInt64.size usual.maxTracked
  let retryAfter ← env.span "FLOWSTATE_RECOVERY_RETRY_AFTER" usual.defaultRetryAfter
  let window ← env.span "FLOWSTATE_RECOVERY_FAILOVER_WINDOW" usual.failoverWindow
  let settings := { usual with
    metaId := ⟨metaId⟩, holder := holder, maxAttempts := attempts, maxTracked := tracked
    defaultRetryAfter := retryAfter, failoverWindow := window }
  settings.validate
  .ok settings

/-- Settings of a delayer from the environment; they are checked. -/
def DelayerSettings.ofEnvironment (env : Environment) : Except Fault DelayerSettings := do
  let usual : DelayerSettings := { holder := freshHolder "delayer" 2 }
  let metaId := env.name "FLOWSTATE_DELAYER_META_ID" usual.metaId.text
  let holder := env.name "FLOWSTATE_DELAYER_HOLDER" usual.holder
  let tracked ← env.natural "FLOWSTATE_DELAYER_MAX_TRACKED" UInt64.size usual.maxTracked
  let window ← env.span "FLOWSTATE_DELAYER_FAILOVER_WINDOW" usual.failoverWindow
  let settings := { usual with
    metaId := ⟨metaId⟩, holder := holder, maxTracked := tracked, failoverWindow := window }
  settings.validate
  .ok settings

def ServiceSettings.ofEnvironment (env : Environment) : Except Fault ServiceSettings := do
  let engine ← EngineSettings.ofEnvironment env
  let recoverer ← RecovererSettings.ofEnvironment env
  let delayer ← DelayerSettings.ofEnvironment env
  .ok { engine, recoverer, delayer }

end Workflow
