import Workflow.Scenario.Background
import Workflow.Scenario.Step

/-!
# Playing a script

The steps of a script are done one after the other. A step that waits lets the tasks in the
background go on, and time pass, until it has its answer.
-/

set_option autoImplicit false

namespace Workflow.Scenario

/-- Something that is closed within a deadline. -/
inductive Closing where
  | recoverer (key : Nat)
  | delayer (key : Nat)
  | engine (key : Nat)

inductive Wait where
  | sleeping (t : Timer)
  /-- That no execution goes on; looks again when the timer goes off, as often as is left. -/
  | settling (engine : Nat) (t : Timer) (left : Nat)
  /-- The next state of a watcher: an announcement beyond those seen, or the timer of the
  next look. -/
  | receiving (name : String) (token : Option String) (deadline look : Timer) (seen : Nat)
  | executing (engine : Nat) (phase : Phase)
  /-- That something is closed, and then others, each within the same span; the first fault counts.
  In the end the answer shows what was closed, unless it is of several things. -/
  | closing (what : Closing) (t : Timer) (others : List Closing) (within : Span)
      (fault : Option Fault) (shown : Option Closing)
  | joining (key : Nat)

def Wait.timers : Wait → List Timer
  | sleeping t => [t]
  | settling _ t _ => [t]
  | receiving _ _ deadline look _ => [deadline, look]
  | executing _ (.asleep t ..) => [t]
  | executing _ (.fresh _) => []
  | closing _ t .. => [t]
  | joining _ => []

/-- The answer to a step, or what it waits for. -/
inductive Turn where
  | answer (a : Answer)
  | wait (w : Wait)

namespace Script

open Event

/-! ### Saving -/

/-- Saves a draft under a name, if there are both. -/
def saveDraft (name : Option String) (d : Option Draft) : Event Unit :=
  match name, d with
  | some name, some d =>
    modify fun w => { w with names := { w.names with drafts := w.names.drafts.insert name d } }
  | _, _ => pure ()

/-- Saves a blob under a name, if there are both. -/
def saveBlob (name : Option String) (b : Option Blob) : Event Unit :=
  match name, b with
  | some name, some b =>
    modify fun w => { w with names := { w.names with blobs := w.names.blobs.insert name b } }
  | _, _ => pure ()

def storedBlob? : Command → Option Blob
  | .storeBlob b => some b
  | _ => none

/-- The blob that a command or the last such part of a bundle stored. -/
def lastStored? : Command → Option Blob
  | .bundle parts => (parts.filterMap storedBlob?).getLast?
  | c => storedBlob? c

/-- Saves what results from a command under a name. -/
def saveResult (name : Option String) (c : Command) : Event Unit := do
  saveDraft name c.resulting?
  saveBlob name (lastStored? c)

/-! ### Steps on a store -/

/-- Accesses the repository, or the bare store. -/
def reach {α : Type} (bare : Bool) (x : Access α) : Event (Except Fault α) := do
  if bare then
    let w ← get
    let (outcome, r) := x.run.run ⟨w.repository.store, .free, .direct⟩
    set { w with repository := { w.repository with store := r.store } }
    return outcome
  else
    access x

def followDraft (d : DraftRecipe) : Event (Except Fault Draft) := do
  access (d.follow (← get).names)

def followCommand (c : CommandRecipe) : Event (Except Fault Command) := do
  access (c.follow (← get).names)

def followAll (parts : List CommandRecipe) : Event (Except Fault (List Command)) := do
  access (CommandRecipe.followAll (← get).names parts)

/-- Whether a fault is a conflict on the state that a command acts on. -/
def concerns (f : Fault) (c : Command) : Bool := c.draft?.any fun d => f.conflictsOn d.id

def commit (bare direct : Bool) (recipes : List CommandRecipe) (save : Option String) :
    Event Answer := do
  match ← followAll recipes with
  | .error f => return .failed f
  | .ok parts =>
    match ← reach bare (Repository.commit (← now) parts) with
    | .ok done =>
      saveResult save (.bundle done)
      return .commands done
    | .error f => return .refused f (parts.map (concerns f)) (if direct then some parts else none)

/-- The new state of a number in a series. -/
def serial (stem : String) (modulus : Option Nat) (i : Nat) : State :=
  let s := State.new ⟨s!"{stem}{i}"⟩
  match modulus with
  | some m => s.label "mod" (toString (i % m))
  | none => s

/-- Commits the states of a series, from number `i` on, until one fails. -/
def commitSeries (bare : Bool) (stem : String) (target : StepId) (modulus : Option Nat) :
    (left i : Nat) → Event (Except Fault Unit)
  | 0, _ => return .ok ()
  | left + 1, i => do
    let part := Command.transit (.ofState (serial stem modulus i)) target ∅
    match ← reach bare (Repository.commit (← now) [part]) with
    | .ok _ => commitSeries bare stem target modulus left (i + 1)
    | .error f => return .error f

def onStore (bare direct : Bool) : StoreStep → Event Answer
  | .commit parts save => commit bare direct parts save
  | .bulk n stem target modulus => do
    let first := (← get).repository.store.log.nextRev
    let outcome ← commitSeries bare stem target modulus n 0
    let last := (← get).repository.store.log.head
    return Answer.ofOutcome outcome fun _ => .revisions first last
  | .findState id rev save => do
    let outcome ← reach bare (Repository.findState id rev)
    saveDraft save outcome.toOption
    return Answer.ofOutcome outcome .draft
  | .findLabelled labels => do
    return Answer.ofOutcome (← reach bare (Repository.findLabelled labels)) .draft
  | .listStates q => do return Answer.ofOutcome (← reach bare (Repository.listStates q)) .states
  | .listRevisions q => do
    return Answer.ofOutcome (← reach bare (Repository.listStates q)) .pageRevisions
  | .listDelayed q => do
    return Answer.ofOutcome (← reach bare (Repository.listDelayed q)) .delayedPage
  | .delay s dueAt => do return Answer.ofOutcome (← reach bare (Repository.delay s dueAt)) .delayed
  | .acknowledge offset => do
    return Answer.ofOutcome (← reach bare (Repository.acknowledge offset)) fun _ => .done
  | .storeBlob recipe save => do
    match ← access (recipe.follow (← get).names) with
    | .error f => return .failed f
    | .ok b =>
      let outcome ← reach bare (Repository.storeBlob b)
      saveBlob save outcome.toOption
      return Answer.ofOutcome outcome .stored
  | .fetchBlob source rev => do
    let saved := (← get).names.blobs
    let known := match source with
      | .inl id => some (id, 0)
      | .inr name => (saved.get? name).map fun b => (b.id, b.rev)
    match known with
    | none => return .senseless
    | some (id, usual) =>
      return Answer.ofOutcome (← reach bare (Repository.fetchBlob id (rev.getD usual))) .found

/-! ### Commands and executions -/

def dispatchCommand (engine : Nat) (recipe : CommandRecipe) (save : Option String) :
    Event Answer := do
  match ← followCommand recipe with
  | .error f => return .failed f
  | .ok c =>
    match ← perform engine dispatch c with
    | (.ok (), c) =>
      saveResult save c
      return .command c
    | (.error f, c) => return .commandFailed f c

/-- The turn of an execution that the script waits for. -/
def executionTurn (engine : Nat) : Progress → Turn
  | .waits phase => .wait (.executing engine phase)
  | .ended outcome => .answer (.ofOutcome outcome fun _ => .done)

/-! ### Watching -/

/-- Looks for the next state of a watcher. -/
def receive (name : String) (token : Option String) (deadline : Timer) : Event Turn := do
  match (← get).watchers.get? name with
  | none => return .answer .senseless
  | some watcher =>
    match ← access watcher.next with
    | .error f => return .answer (.failed f)
    | .ok (found, watcher) =>
      modify fun w => { w with watchers := w.watchers.insert name watcher }
      if found.isSome then
        return .answer (.received found watcher.query.sinceRev (← now))
      let look := Timer.ofDeadline (← deadlineIn watcher.pollInterval)
      return .wait (.receiving name token deadline look (← get).repository.store.announced)

/-- Goes on waiting for the next state of a watcher. -/
def resumeReceiving (name : String) (token : Option String) (deadline look : Timer) (seen : Nat) :
    Event Turn := do
  let w ← get
  match w.watchers.get? name with
  | none => return .answer .senseless
  | some watcher =>
    let cancelled := token.any fun token => (w.tokens.get? token).getD false
    if cancelled || deadline.isDue w.tick then
      return .answer (.received none watcher.query.sinceRev (← now))
    if (watcher.listens && w.repository.store.announced ≠ seen) || look.isDue w.tick then
      receive name token deadline
    else
      return .wait (.receiving name token deadline look seen)

/-! ### Components -/

def startRecoverer (engine : Nat) (c : RecovererSettings) :
    Event (Option (Except Fault Nat)) := do
  match c.validate with
  | .error f => return some (.error f)
  | .ok () =>
    match c.staleAfter? with
    | none => return none
    | some stale =>
      match ← perform engine (Recoverer.start stale) (.new c) with
      | (.error f, _) => return some (.error f)
      | (.ok (), own) =>
        let key ← spawn .recoverer
        let component := Component.new engine own (recovererDuties c stale)
        putRecoverer key { component with cancelled := !(← Event.engine engine).isOpen }
        return some (.ok key)

def startDelayer (engine : Nat) (c : DelayerSettings) : Event (Option (Except Fault Nat)) := do
  match c.validate with
  | .error f => return some (.error f)
  | .ok () =>
    match c.staleAfter? with
    | none => return none
    | some stale =>
      match ← perform engine (Delayer.start stale) (.new c) with
      | (.error f, _) => return some (.error f)
      | (.ok (), own) =>
        let key ← spawn .delayer
        let component := Component.new engine own (delayerDuties c stale)
        putDelayer key { component with cancelled := !(← Event.engine engine).isOpen }
        return some (.ok key)

def showRecoverer (key : Nat) (shown : Recoverer → Answer) : Event Answer := do
  return (((← get).recoverers.get? key).map fun c => shown c.own).getD .senseless

def showDelayer (key : Nat) (shown : Delayer → Answer) : Event Answer := do
  return (((← get).delayers.get? key).map fun c => shown c.own).getD .senseless

def showNamedRecoverer (name : String) (shown : Recoverer → Answer) : Event Answer := do
  match (← get).recovererKeys.get? name with
  | some key => showRecoverer key shown
  | none => return .senseless

def showNamedDelayer (name : String) (shown : Delayer → Answer) : Event Answer := do
  match (← get).delayerKeys.get? name with
  | some key => showDelayer key shown
  | none => return .senseless

/-- Starts an engine with a recoverer and a delayer. If one of them does not start, what started
before it goes on, but there is no service. -/
def startService (name : String) (c : ServiceSettings) : Event Answer := do
  let engine ← newEngine c.engine
  match ← startRecoverer engine c.recoverer with
  | none => return .broken
  | some (.error f) => return .failed f
  | some (.ok recoverer) =>
    match ← startDelayer engine c.delayer with
    | none => return .broken
    | some (.error f) => return .failed f
    | some (.ok delayer) =>
      modify fun w => { w with
        services := w.services.insert name ⟨engine, recoverer, delayer⟩
        engineKeys := w.engineKeys.insert s!"service:{name}" engine }
      return .done

/-- Commits a state with a transition to a step, and executes it. -/
def startState (name : String) (recipe : DraftRecipe) (target : StepId) (save : Option String) :
    Event Answer := do
  match (← get).services.get? name with
  | none => return .senseless
  | some service =>
    match ← followDraft recipe with
    | .error f => return .failed f
    | .ok d =>
      let part := Command.transit (.ofState d.current) target ∅
      match ← perform service.engine (Work.commit [part]) () with
      | (.error f, _) => return .failed f
      | (.ok parts, _) =>
        let d := (Command.bundle parts).resulting?.getD default
        launch service.engine d
        saveDraft save (some d)
        return .draft d

def showService (name : String) : Event Answer := do
  let w ← get
  match w.services.get? name with
  | none => return .senseless
  | some s =>
    match w.recoverers.get? s.recoverer, w.delayers.get? s.delayer with
    | some r, some d => return .service r.own d.own (← engine s.engine)
    | _, _ => return .senseless

/-! ### Closing -/

/-- The outcome of a wait for the loop of a component, once there is one: it ended, it broke down,
or the deadline has passed. -/
def loopOutcome (standing : Standing) (late : Bool) (what : Unfinished) :
    Option (Except Fault Unit) :=
  match standing with
  | .finished => some (.ok ())
  | .broken => some (.error (.other s!"tarea del {what.message}"))
  | .alive => if late then some (.error (.unfinished what)) else none

/-- Lets a recoverer give its lease back once its loop has ended. -/
def finishRecoverer (key : Nat) (c : Component Recoverer) : Event (Except Fault Unit) := do
  let (_, own) ← perform c.engine Recoverer.stop c.own
  putRecoverer key { c with own := own }
  return .ok ()

/-- Lets a delayer give its lease back once its loop has ended. -/
def finishDelayer (key : Nat) (c : Component Delayer) : Event (Except Fault Unit) := do
  let (_, own) ← perform c.engine Delayer.stop c.own
  putDelayer key { c with own := own }
  return .ok ()

def closingOutcome (what : Closing) (t : Timer) : Event (Option (Except Fault Unit)) := do
  let w ← get
  let late := t.isDue w.tick
  match what with
  | .recoverer key =>
    match w.recoverers.get? key with
    | none => return some (.ok ())
    | some c =>
      match loopOutcome c.standing late .recoverer with
      | some (.ok ()) => return some (← finishRecoverer key c)
      | outcome => return outcome
  | .delayer key =>
    match w.delayers.get? key with
    | none => return some (.ok ())
    | some c =>
      match loopOutcome c.standing late .delayer with
      | some (.ok ()) => return some (← finishDelayer key c)
      | outcome => return outcome
  | .engine key =>
    let running := (← engine key).running
    if running = 0 then return some (.ok ())
    if late then return some (.error (.unfinished (.executions running)))
    return none

/-- Begins to close something, and answers the outcome if there is one already. The end of a loop is
waited for once; who comes later goes on without it. -/
def beginClosing (what : Closing) (t : Timer) : Event (Option (Except Fault Unit)) := do
  let w ← get
  match what with
  | .recoverer key =>
    match w.recoverers.get? key with
    | none => return some (.ok ())
    | some c =>
      let stopping := { c with cancelled := true, awaited := true }
      putRecoverer key stopping
      wake key
      if c.awaited then return some (← finishRecoverer key stopping)
  | .delayer key =>
    match w.delayers.get? key with
    | none => return some (.ok ())
    | some c =>
      let stopping := { c with cancelled := true, awaited := true }
      putDelayer key stopping
      wake key
      if c.awaited then return some (← finishDelayer key stopping)
  | .engine key => closeEngine key
  closingOutcome what t

def closedAnswer (fault : Option Fault) : Option Closing → Event Answer
  | some (.recoverer key) =>
    match fault with
    | some f => return .failed f
    | none => showRecoverer key .recoverer
  | some (.delayer key) =>
    match fault with
    | some f => return .failed f
    | none => showDelayer key .delayer
  | _ => return (fault.map Answer.failed).getD .done

/-- Closes one thing after the other, each within the span, until one has to be waited for. -/
def closeAll (within : Span) (fault : Option Fault) (shown : Option Closing) :
    List Closing → Event Turn
  | [] => do return .answer (← closedAnswer fault shown)
  | what :: others => do
    let t := Timer.ofDeadline (← deadlineIn within)
    match ← beginClosing what t with
    | none => return .wait (.closing what t others within fault shown)
    | some (.ok ()) => closeAll within fault shown others
    | some (.error f) => closeAll within (fault.orElse fun _ => some f) shown others

/-- Closes one thing, and shows it. -/
def closeOne (within : Span) (what : Closing) : Event Turn :=
  closeAll within none (some what) [what]

/-! ### Turns -/

/-- How often a settling script looks at most whether an execution goes on. -/
def looks : Nat := 200

/-- The time between two such looks. -/
def lookInterval : Span := .ofMillis 10

/-- Waits for another look whether an execution goes on. -/
def settleTurn (engine left : Nat) : Event Turn := do
  return .wait (.settling engine (.ofDeadline (← deadlineIn lookInterval)) left)

def begin : Step → Event Turn
  | .onStore bare direct step => do return .answer (← onStore bare direct step)
  | .malformed => return .answer (.failed .malformed)
  | .log => do return .answer (.log (← get).repository.store.log.entries)
  | .plan m outcomes => do
    modify fun w =>
      { w with repository := { w.repository with gate := w.repository.gate.plan m outcomes } }
    return .answer .done
  | .calls => do return .answer (.calls (← get).repository.gate.calls.entries)
  | .save recipe name => do
    let outcome ← followDraft recipe
    saveDraft (some name) outcome.toOption
    return .answer (.ofOutcome outcome .draft)
  | .dispatch engine c save => do
    return .answer (← dispatchCommand (← engineKey engine) c save)
  | .execute name recipe => do
    let engine ← engineKey name
    match ← followDraft recipe with
    | .error f => return .answer (.failed f)
    | .ok d => return executionTurn engine (← Execution.resume engine (.fresh d))
  | .spawn name recipe => do
    let key ← engineKey name
    match ← followDraft recipe with
    | .error f => return .answer (.failed f)
    | .ok d =>
      launch key d
      return .answer (.running (← engine key).running)
  | .later name after parts token => do
    let engine ← engineKey name
    match ← followAll parts with
    | .error f => return .answer (.failed f)
    | .ok parts =>
      discard <| spawn (.later engine after none token parts)
      return .answer .done
  | .sleep d => do
    let t := Timer.ofDeadline (← deadlineIn d)
    if ← isDue t then return .answer (.time (← now))
    return .wait (.sleeping t)
  | .settle name => do settleTurn (← engineKey name) looks
  | .showEngine name => do return .answer (.engine (← engine (← engineKey name)) (← now))
  | .closeEngine name deadline => do closeOne deadline (.engine (← engineKey name))
  | .register step p => do
    modify fun w => { w with steps := w.steps.insert step p }
    return .answer .done
  | .lookup step => do
    if (← get).steps.contains step then return .answer .registered
    return .answer (.failed (.stepNotFound step.text))
  | .watch name own q => do
    let e ← engine (← engineKey name)
    let r := (← get).repository
    let watcher := Watcher.new q r e.settings.pollInterval
    modify fun w => { w with watchers := w.watchers.insert own watcher }
    return .answer .done
  | .token name => do
    modify fun w => { w with tokens := w.tokens.insert name false }
    return .answer .done
  | .cancel name => do
    cancel name
    return .answer .done
  | .receive name timeout token => do
    receive name token (.ofDeadline (← deadlineIn timeout))
  | .showCache => do
    let r := (← get).repository
    match r.cache? with
    | some c => return .answer (.cache c ((r.gate.calls.get? .commit).getD 0))
    | none => return .answer .senseless
  | .refresh => do return .answer (.ofOutcome (← access Repository.refresh) .read)
  | .startRefresher every => do
    let key ← spawn .refresher
    putRefresher key (.new 0 () (refresherDuties every))
    modify fun w => { w with refresherKey := some key }
    return .answer .done
  | .stopRefresher => do
    let w ← get
    match w.refresherKey.bind fun key => (w.refreshers.get? key).map fun c => (key, c) with
    | none => return .answer .senseless
    | some (key, c) =>
      putRefresher key { c with cancelled := true }
      wake key
      return .wait (.joining key)
  | .startRecoverer name own c => do
    match ← startRecoverer (← engineKey name) c with
    | none => return .answer .broken
    | some (.error f) => return .answer (.failed f)
    | some (.ok key) =>
      modify fun w => { w with recovererKeys := w.recovererKeys.insert own key }
      return .answer (← showRecoverer key .recoverer)
  | .showRecoverer name => do return .answer (← showNamedRecoverer name .recovererActivity)
  | .stopRecoverer name deadline => do
    match (← get).recovererKeys.get? name with
    | none => return .answer .senseless
    | some key => closeOne deadline (.recoverer key)
  | .startDelayer name own c => do
    match ← startDelayer (← engineKey name) c with
    | none => return .answer .broken
    | some (.error f) => return .answer (.failed f)
    | some (.ok key) =>
      modify fun w => { w with delayerKeys := w.delayerKeys.insert own key }
      return .answer (← showDelayer key .delayer)
  | .showDelayer name => do return .answer (← showNamedDelayer name .delayerActivity)
  | .stopDelayer name deadline => do
    match (← get).delayerKeys.get? name with
    | none => return .answer .senseless
    | some key => closeOne deadline (.delayer key)
  | .startService name c => do return .answer (← startService name c)
  | .startState name d target save => do return .answer (← startState name d target save)
  | .showService name => do return .answer (← showService name)
  | .stopService name deadline => do
    match (← get).services.get? name with
    | none => return .answer .senseless
    | some s =>
      closeAll deadline none none [.delayer s.delayer, .recoverer s.recoverer, .engine s.engine]

/-- Goes on with a step that waits. -/
def resume (wait : Wait) : Event Turn := do
  match wait with
  | .sleeping t =>
    if ← isDue t then return .answer (.time (← now))
    return .wait wait
  | .settling key t left =>
    if !(← isDue t) then return .wait wait
    let running := (← engine key).running
    if running = 0 ∨ left ≤ 1 then return .answer (.running running)
    settleTurn key (left - 1)
  | .receiving name token deadline look seen => resumeReceiving name token deadline look seen
  | .executing engine phase => return executionTurn engine (← Execution.resume engine phase)
  | .closing what t others within fault shown =>
    match ← closingOutcome what t with
    | none => return .wait wait
    | some (.ok ()) => closeAll within fault shown others
    | some (.error f) => closeAll within (fault.orElse fun _ => some f) shown others
  | .joining key =>
    match (← get).refreshers.get? key with
    | none => return .answer .senseless
    | some c =>
      if c.standing = .alive then return .wait wait
      modify fun w => { w with refresherKey := none }
      return .answer (.ended (c.standing = .finished))

/-- Lets the world go on until the step has its answer. If nothing can go on, the script
is stuck. -/
def await : (fuel : Nat) → Turn → Event Answer
  | 0, _ => return .broken
  | _, .answer a => return a
  | fuel + 1, .wait wait => do
    match ← resume wait with
    | .answer a => return a
    | .wait wait =>
      if (← get).ready.isEmpty then
        if !(← jump wait.timers) then return .broken
      else
        runReady turns
      await fuel (.wait wait)

/-- How long a step may take. -/
def patience : Nat := 100000000

/-- What is seen after a step. -/
def look (a : Answer) : Event Sight := do
  let w ← get
  set { w with reports := [] }
  return ⟨a, w.repository.store.log.head, w.repository.store.delays.items.size, w.reports⟩

/-- Plays the steps of a script. There is no outcome if the program breaks down. -/
def play : List Step → Event (Option (List Sight))
  | [] => return some []
  | step :: rest => do
    match ← await patience (← begin step) with
    | .broken => return none
    | a =>
      let sight ← look a
      return (← play rest).map (sight :: ·)

end Script

def World.new (start : Instant) (front : Front) (usual : EngineSettings)
    (steps : SortedMap StepId Play) : World where
  start := start
  tick := 0
  repository := .new front
  usual := usual
  engines := ∅
  engineKeys := ∅
  steps := steps
  names := .none
  tokens := ∅
  watchers := ∅
  recoverers := ∅
  recovererKeys := ∅
  delayers := ∅
  delayerKeys := ∅
  refreshers := ∅
  refresherKey := none
  services := ∅
  tasks := ∅
  nextKey := 1
  ready := []
  nextPlace := 0
  reports := []

def World.play (w : World) (script : List Step) : Option (List Sight) := (Script.play script w).1

end Workflow.Scenario
