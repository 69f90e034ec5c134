import Workflow.Scenario.Execution

/-!
# Background tasks

How the tasks of a world go on: the loops of components, executions that were started, and bundles
to be committed later.
-/

set_option autoImplicit false

namespace Workflow.Scenario

namespace Component

variable {σ : Type}

/-- The timers of the duties when the loop starts; there are none if a duty has no period. -/
def firstTimers (duties : List (Duty σ)) (now : Nat) : Option (List Timer) :=
  duties.mapM fun d =>
    if d.period.isZero then none
    else some (Timer.ofDeadline (if d.atOnce then now else now + d.period.nanos))

/-- Looks through the timers in order. The first one that is due is moved on by its period, and its
duty is answered; until then timers are set. -/
def nextDuty : List (Duty σ) → List Timer → Event (Option (Duty σ) × List Timer)
  | d :: duties, t :: timers => do
    if ← Event.isDue t then
      return (some d, Timer.ofDeadline (t.deadline + d.period.nanos) :: timers)
    let t ← Event.setTimer t
    let (found, timers) ← nextDuty duties timers
    return (found, t :: timers)
  | _, timers => return (none, timers)

/-- Does what is due until nothing is. A duty that fails is done again in its next round. -/
def runDuties (c : Component σ) : (fuel : Nat) → List Timer → Event (Component σ)
  | 0, timers => return { c with timers := some timers }
  | fuel + 1, timers => do
    match ← nextDuty c.duties timers with
    | (none, timers) => return { c with timers := some timers }
    | (some duty, timers) =>
      let (_, own) ← Event.perform c.engine duty.work c.own
      runDuties { c with own := own } fuel timers

/-- How many rounds a loop may take without waiting. -/
def patience : Nat := 100000

/-- Lets the loop go on. -/
def goOn (c : Component σ) : Event (Component σ) := do
  let now ← Event.elapsed
  match c.timers.orElse fun _ => firstTimers c.duties now with
  | none => return { c with standing := .broken }
  | some timers =>
    if c.cancelled then return { c with standing := .finished }
    c.runDuties patience timers

end Component

namespace Task

def close (key : Nat) : Event Unit := modify fun w => { w with tasks := w.tasks.erase key }

def goOnLoop {σ : Type} (key : Nat) (c : Option (Component σ)) (put : Component σ → Event Unit) :
    Event Unit := do
  match c with
  | none => close key
  | some c =>
    let c ← c.goOn
    put c
    if c.standing ≠ .alive then close key

/-- Lets a task go on until it waits or ends. -/
def goOn (key : Nat) : Event Unit := do
  let w ← get
  match w.tasks.get? key with
  | none => pure ()
  | some .recoverer =>
    goOnLoop key (w.recoverers.get? key) (Event.putRecoverer key)
  | some .delayer =>
    goOnLoop key (w.delayers.get? key) (Event.putDelayer key)
  | some .refresher =>
    goOnLoop key (w.refreshers.get? key) (Event.putRefresher key)
  | some (.execution engine phase) =>
    match ← Execution.resume engine phase with
    | .waits phase =>
      modify fun w => { w with tasks := w.tasks.insert key (.execution engine phase) }
    | .ended _ =>
      close key
      Execution.leave engine
  | some (.later engine after timer token parts) =>
    let timer := timer.getD (.ofDeadline (← Event.deadlineIn after))
    if ← Event.isDue timer then
      close key
      if let some token := token then Event.cancel token
      discard <| Event.perform engine (Work.commit parts) ()
    else
      let timer ← Event.setTimer timer
      modify fun w => { w with tasks := w.tasks.insert key (.later engine after timer token parts) }

def timers (w : World) (key : Nat) : Task → List Timer
  | execution _ (.asleep t ..) => [t]
  | execution _ (.fresh _) => []
  | recoverer => ((w.recoverers.get? key).bind Component.timers).getD []
  | delayer => ((w.delayers.get? key).bind Component.timers).getD []
  | refresher => ((w.refreshers.get? key).bind Component.timers).getD []
  | later _ _ timer _ _ => timer.toList

end Task

namespace Event

/-- How many tasks go on before the script has its turn again. -/
def turns : Nat := 61

/-- Lets ready tasks go on, one after the other. -/
def runReady : (fuel : Nat) → Event Unit
  | 0 => pure ()
  | fuel + 1 => do
    match (← get).ready with
    | [] => pure ()
    | key :: rest =>
      modify fun w => { w with ready := rest }
      Task.goOn key
      runReady fuel

/-- Whether the first alarm wakes its task before the second. -/
def wakesBefore (a b : Timer × Nat) : Bool :=
  a.1.tick < b.1.tick || (a.1.tick == b.1.tick && a.1.place.getD 0 ≤ b.1.place.getD 0)

/-- Jumps to the first of the given timers and those of the tasks, and wakes the tasks whose timers
have gone off. Answers whether there was a timer. -/
def jump (own : List Timer) : Event Bool := do
  let w ← get
  let alarms := w.tasks.entries.flatMap fun (key, task) => (task.timers w key).map fun t => (t, key)
  match (own ++ alarms.map Prod.fst).map Timer.tick with
  | [] => return false
  | first :: others =>
    let tick := max w.tick (others.foldl min first)
    set { w with tick := tick }
    for (_, key) in (alarms.filter (·.1.isDue tick)).mergeSort wakesBefore do
      wake key
    return true

end Event

end Workflow.Scenario
