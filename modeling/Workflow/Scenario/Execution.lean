import Workflow.Scenario.World

/-!
# Executions

An execution runs the step that its state waits at, dispatches the command in which the step ends,
and goes on with the first state that continues; the others are executed on their own. It ends when
nothing continues, when somebody else advanced the state, with a fault, or when its engine closes.
-/

set_option autoImplicit false

namespace Workflow.Scenario

/-- How far an execution got. -/
inductive Progress where
  | waits (phase : Phase)
  | ended (outcome : Except Fault Unit)

/-- What an execution does next. -/
inductive Stage where
  | enter (d : Draft)
  | stop (p : Progress)

namespace Execution

def failed (f : Fault) : Stage := .stop (.ended (.error f))

/-- The end without a fault. -/
def done : Stage := .stop (.ended (.ok ()))

/-- Follows the description of a command with the draft at hand. -/
def follow (d : Draft) (c : CommandRecipe) : Event (Except Fault Command) := do
  let names := (← get).names.withSelf d
  Event.access (c.follow names)

/-- Dispatches a command of an action, and reports how it went. -/
def dispatchAction (engine : Nat) (d : Draft) (c : CommandRecipe) : Event (Except Fault Unit) := do
  match ← follow d c with
  | .error f => return .error f
  | .ok c =>
    match ← Event.perform engine dispatch c with
    | (.ok (), c) =>
      Event.report (.dispatched c)
      return .ok ()
    | (.error f, _) =>
      Event.report (.failed f)
      return .error f

/-- Commits the bundle of an action, and answers the draft that it results in. -/
def commitAction (engine : Nat) (d : Draft) (parts : List CommandRecipe) :
    Event (Except Fault Draft) := do
  match ← follow d (.bundle parts) with
  | .ok (.bundle parts) =>
    match ← Event.perform engine (Work.commit parts) () with
    | (.ok parts, _) => return .ok ((Command.bundle parts).resulting?.getD d)
    | (.error f, _) => return .error f
  | .ok _ => return .ok d
  | .error f => return .error f

/-- Takes an action, its sleep left aside. -/
def takeAction (engine : Nat) (d : Draft) (a : Action) : Event (Except Fault Draft) := do
  let d := a.edits.apply d
  if let some c := a.command then
    if let .error f ← dispatchAction engine d c then
      if !a.tolerant then return .error f
  match a.bundle with
  | none => return .ok d
  | some parts => commitAction engine d parts

/-- Goes on after the command in which a step ended. -/
def goOn (engine : Nat) (c : Command) : Event Stage := do
  match c.continuations with
  | [] => return done
  | next :: others =>
    for d in others do
      Event.launch engine d
    return .enter next

/-- Dispatches the command in which a step ends. A command to execute a draft makes this execution
go on with it. That somebody else advanced the state ends the execution without a fault. -/
def conclude (engine : Nat) (d : Draft) : Outcome → Event Stage
  | .fault f => return failed f
  | .command recipe => do
    match ← follow d recipe with
    | .error f => return failed f
    | .ok (.execute next) => goOn engine (.execute next)
    | .ok c =>
      match ← Event.perform engine dispatch c with
      | (.ok (), c) => goOn engine c
      | (.error f, _) => return if f.isConflict then done else failed f

/-- The timer that an action has to wait for, if it sleeps on. -/
def nap (a : Action) : Event (Option Timer) := do
  match a.sleep with
  | none => return none
  | some span =>
    let timer := Timer.ofDeadline (← Event.deadlineIn span)
    if ← Event.isDue timer then return none
    return some (← Event.setTimer timer)

/-- Takes the actions of a step up to one that sleeps on; after the last one the step ends. -/
def act (engine : Nat) (outcome : Outcome) : Draft → List Action → Event Stage
  | d, [] => conclude engine d outcome
  | d, a :: rest => do
    match ← nap a with
    | some timer =>
      return .stop (.waits (.asleep timer d ({ a with sleep := none } :: rest) outcome))
    | none =>
      match ← takeAction engine d a with
      | .ok d => act engine outcome d rest
      | .error f => return failed f

/-- Runs the step that the state waits at, if the engine is still open and knows the step. -/
def enter (engine : Nat) (d : Draft) : Event Stage := do
  let target := d.current.transition.target
  if !(← Event.engine engine).isOpen then return done
  if target.isEmpty then return failed (.invalid (.nowhere d.id))
  match ((← get).steps.get? target).bind Play.next? with
  | none => return failed (.stepNotFound target.text)
  | some (behaviour, rest) =>
    modify fun w => { w with steps := w.steps.insert target rest }
    Event.report (.entered target d.id d.expectedRev d.current.transition.source d.current.attempt
      (← Event.now))
    act engine behaviour.outcome d behaviour.actions

/-- Goes on until the execution waits or ends. An execution that goes on for ever without waiting is
cut off. -/
def run (engine : Nat) : (fuel : Nat) → Stage → Event Progress
  | _, .stop p => return p
  | 0, .enter _ => return .ended (.ok ())
  | fuel + 1, .enter d => do run engine fuel (← enter engine d)

/-- How many steps an execution may run without waiting. -/
def patience : Nat := 100000

/-- Notes that an execution ended. -/
def leave (engine : Nat) : Event Unit :=
  Event.changeEngine engine fun e => { e with running := e.running - 1 }

/-- Goes on from where an execution stands. While it goes on, it counts as running. -/
def resume (engine : Nat) (phase : Phase) : Event Progress := do
  match phase with
  | .fresh d =>
    if !(← Event.engine engine).isOpen then return .ended (.ok ())
    Event.changeEngine engine fun e => { e with running := e.running + 1 }
    let first := if d.id.isEmpty then failed (.invalid .anonymousExecution) else .enter d
    finish (← run engine patience first)
  | .asleep timer d actions outcome =>
    if ← Event.isDue timer then
      finish (← run engine patience (← act engine outcome d actions))
    else
      return .waits phase
where
  finish (p : Progress) : Event Progress := do
    if let .ended _ := p then leave engine
    return p

end Execution

end Workflow.Scenario
