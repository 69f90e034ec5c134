import Workflow.Delayer
import Workflow.Recoverer
import Workflow.Scenario.Recipe
import Workflow.Watcher

/-!
# Worlds

All there is while a script is played: a repository, engines, components, and tasks that wait. Time
stands still while anything can go on; otherwise it jumps to the next timer. It is counted in
milliseconds, and a timer goes off at the first millisecond that is not before its deadline. Tasks
that can go on do so in the order in which they were started or woken; timers of one millisecond
wake their tasks in the order in which they were set.
-/

set_option autoImplicit false

namespace Workflow.Scenario

/-! ### Timers -/

structure Timer where
  deadline : Nat
  /-- The place among all timers, in the order of setting; none before it is set. -/
  place : Option Nat

namespace Timer

/-- A timer that is not set yet. -/
def ofDeadline (deadline : Nat) : Timer := ⟨deadline, none⟩

def perTick : Nat := 1000000

/-- The millisecond at which the timer goes off. -/
def tick (t : Timer) : Nat := (t.deadline + (perTick - 1)) / perTick

/-- Whether the timer has gone off at a millisecond. -/
def isDue (t : Timer) (now : Nat) : Bool := t.tick ≤ now

end Timer

/-! ### Components -/

inductive Standing where
  | alive
  | finished
  | broken
  deriving DecidableEq

/-- Work that is done again and again. -/
structure Duty (σ : Type) where
  period : Span
  /-- Whether the first round is done at once, and not a period later. -/
  atOnce : Bool
  work : Work σ Unit

/-- A component with a loop in the background. -/
structure Component (σ : Type) where
  engine : Nat
  own : σ
  /-- What its loop does; of several things that are due the first one is done first. -/
  duties : List (Duty σ)
  /-- The timers of the duties, once the loop runs. -/
  timers : Option (List Timer)
  cancelled : Bool
  awaited : Bool
  standing : Standing

def Component.new {σ : Type} (engine : Nat) (own : σ) (duties : List (Duty σ)) : Component σ :=
  ⟨engine, own, duties, none, false, false, .alive⟩

def recovererDuties (c : RecovererSettings) (stale : Span) : List (Duty Recoverer) :=
  [⟨c.headInterval, true, Recoverer.scanHead c⟩, ⟨c.tailInterval, true, Recoverer.scanTail c stale⟩]

def delayerDuties (c : DelayerSettings) (stale : Span) : List (Duty Delayer) :=
  [⟨c.horizonInterval, true, Delayer.scanHorizon c stale⟩,
    ⟨c.freshnessInterval, true, Delayer.scanFresh c⟩,
    ⟨c.fireInterval, true, Delayer.scanDue⟩,
    ⟨c.commitInterval, false, Delayer.storeWatermark c⟩]

def refresherDuties (every : Span) : List (Duty Unit) :=
  [⟨every, true, do discard <| Work.access Repository.refresh⟩]

/-! ### Tasks -/

inductive Phase where
  | fresh (d : Draft)
  | asleep (timer : Timer) (d : Draft) (actions : List Action) (outcome : Outcome)

/-- Something that goes on in the background. -/
inductive Task where
  | execution (engine : Nat) (phase : Phase)
  | recoverer
  | delayer
  | refresher
  /-- A token to cancel and a bundle to commit after a time. -/
  | later (engine : Nat) (after : Span) (timer : Option Timer) (token : Option String)
      (parts : List Command)

/-! ### The world -/

structure Engine where
  settings : EngineSettings
  isOpen : Bool
  running : Nat

structure Service where
  engine : Nat
  recoverer : Nat
  delayer : Nat

structure World where
  start : Instant
  tick : Nat
  repository : Repository
  usual : EngineSettings
  engines : SortedMap Nat Engine
  engineKeys : SortedMap String Nat
  steps : SortedMap StepId Play
  names : Names
  /-- The tokens, and whether they were cancelled. -/
  tokens : SortedMap String Bool
  watchers : SortedMap String Watcher
  recoverers : SortedMap Nat (Component Recoverer)
  recovererKeys : SortedMap String Nat
  delayers : SortedMap Nat (Component Delayer)
  delayerKeys : SortedMap String Nat
  refreshers : SortedMap Nat (Component Unit)
  refresherKey : Option Nat
  services : SortedMap String Service
  tasks : SortedMap Nat Task
  nextKey : Nat
  ready : List Nat
  nextPlace : Nat
  reports : List Report

/-- Something that happens in a world. -/
abbrev Event (α : Type) := StateM World α

namespace Event

/-- Nanoseconds since the start. -/
def elapsed : Event Nat := do return (← get).tick * Timer.perTick

def now : Event Instant := do
  let w ← get
  return w.start + Span.ofMillis w.tick

/-- The deadline after a span of time. -/
def deadlineIn (d : Span) : Event Nat := do return (← elapsed) + d.nanos

def isDue (t : Timer) : Event Bool := do return t.isDue (← get).tick

/-- Sets a timer, unless it is set already. -/
def setTimer (t : Timer) : Event Timer := do
  match t.place with
  | some _ => return t
  | none =>
    let w ← get
    set { w with nextPlace := w.nextPlace + 1 }
    return { t with place := some w.nextPlace }

def report (r : Report) : Event Unit := modify fun w => { w with reports := w.reports ++ [r] }

def spawn (task : Task) : Event Nat := do
  let w ← get
  set { w with
    tasks := w.tasks.insert w.nextKey task
    ready := w.ready ++ [w.nextKey]
    nextKey := w.nextKey + 1 }
  return w.nextKey

def wake (key : Nat) : Event Unit :=
  modify fun w =>
    if w.tasks.contains key && !w.ready.contains key then { w with ready := w.ready ++ [key] }
    else w

/-! ### Engines -/

def engine (key : Nat) : Event Engine := do
  let w ← get
  return (w.engines.get? key).getD ⟨w.usual, false, 0⟩

def changeEngine (key : Nat) (f : Engine → Engine) : Event Unit := do
  let e ← engine key
  modify fun w => { w with engines := w.engines.insert key (f e) }

/-- Sets up an engine, and answers its key. -/
def newEngine (settings : EngineSettings) : Event Nat := do
  let w ← get
  set { w with
    engines := w.engines.insert w.nextKey ⟨settings, true, 0⟩
    nextKey := w.nextKey + 1 }
  return w.nextKey

/-- The key of the engine of a name; a name that was not used before gets a new engine. -/
def engineKey (name : String) : Event Nat := do
  let w ← get
  match w.engineKeys.get? name with
  | some key => return key
  | none =>
    let key ← newEngine w.usual
    modify fun w => { w with engineKeys := w.engineKeys.insert name key }
    return key

/-- Starts the execution of a draft, if the engine still starts any. -/
def launch (key : Nat) (d : Draft) : Event Unit := do
  if (← engine key).isOpen then
    changeEngine key fun e => { e with running := e.running + 1 }
    discard <| spawn (.execution key (.fresh d))

def perform {σ α : Type} (key : Nat) (x : Work σ α) (own : σ) : Event (Except Fault α × σ) := do
  let e ← engine key
  let w ← get
  let (outcome, own, site) := x.perform own ⟨w.repository, ← now, e.isOpen, []⟩
  modify fun w => { w with repository := site.repository }
  for d in site.launched do
    launch key d
  return (outcome, own)

def access {α : Type} (x : Access α) : Event (Except Fault α) := do
  let w ← get
  let (outcome, repository) := x.run.run w.repository
  set { w with repository := repository }
  return outcome

/-! ### Tokens -/

def cancel (name : String) : Event Unit :=
  modify fun w => { w with tokens := w.tokens.insert name true }

/-! ### Components -/

def putRecoverer (key : Nat) (c : Component Recoverer) : Event Unit :=
  modify fun w => { w with recoverers := w.recoverers.insert key c }

def putDelayer (key : Nat) (c : Component Delayer) : Event Unit :=
  modify fun w => { w with delayers := w.delayers.insert key c }

def putRefresher (key : Nat) (c : Component Unit) : Event Unit :=
  modify fun w => { w with refreshers := w.refreshers.insert key c }

def cancelRecoverer (key : Nat) (c : Component Recoverer) : Event Unit := do
  putRecoverer key { c with cancelled := true }
  wake key

def cancelDelayer (key : Nat) (c : Component Delayer) : Event Unit := do
  putDelayer key { c with cancelled := true }
  wake key

/-- Closes an engine: it starts no executions any more, and the loops of its components stop. -/
def closeEngine (engine : Nat) : Event Unit := do
  changeEngine engine fun e => { e with isOpen := false }
  for (key, c) in (← get).recoverers.entries do
    if c.engine = engine then cancelRecoverer key c
  for (key, c) in (← get).delayers.entries do
    if c.engine = engine then cancelDelayer key c

end Event

end Workflow.Scenario
