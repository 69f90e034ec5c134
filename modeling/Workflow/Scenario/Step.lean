import Workflow.Scenario.World

/-!
# Scripts and answers

The steps that a script is made of, and the answers to them.
-/

set_option autoImplicit false

namespace Workflow.Scenario

/-- A step of a script that works on a store. -/
inductive StoreStep where
  /-- Commits a bundle, and saves its first draft and its last stored blob under the name. -/
  | commit (parts : List CommandRecipe) (save : Option String)
  /-- Commits new states one by one, with the number modulo `modulus` as a label. -/
  | bulk (n : Nat) (stem : String) (target : StepId) (modulus : Option Nat)
  /-- Looks up a revision of a state, and saves it under the name. -/
  | findState (id : StateId) (rev : Int) (save : Option String)
  | findLabelled (labels : Notes)
  | listStates (q : StateQuery)
  | listRevisions (q : StateQuery)
  | listDelayed (q : DelayQuery)
  | delay (s : State) (dueAt : Instant)
  | acknowledge (offset : Int)
  | storeBlob (b : BlobRecipe) (save : Option String)
  /-- Looks up a revision of a blob, given by its identity or by the name it is saved under. -/
  | fetchBlob (source : BlobId ⊕ String) (rev : Option Int)

inductive Step where
  /-- Works on the repository, or on the bare store if `bare`. A commit is made by an engine unless
  `direct`. -/
  | onStore (bare direct : Bool) (step : StoreStep)
  | malformed
  | log
  | plan (m : Method) (outcomes : List (Option Fault))
  | calls
  | save (d : DraftRecipe) (name : String)
  /-- Dispatches a command, and saves what results under the name. -/
  | dispatch (engine : String) (c : CommandRecipe) (save : Option String)
  | execute (engine : String) (d : DraftRecipe)
  | spawn (engine : String) (d : DraftRecipe)
  /-- After a time, cancels a token and commits a bundle. -/
  | later (engine : String) (after : Span) (parts : List CommandRecipe) (token : Option String)
  | sleep (d : Span)
  | settle (engine : String)
  | showEngine (engine : String)
  | closeEngine (engine : String) (deadline : Span)
  | register (step : StepId) (p : Play)
  | lookup (step : StepId)
  | watch (engine name : String) (q : StateQuery)
  | token (name : String)
  | cancel (name : String)
  | receive (name : String) (timeout : Span) (token : Option String)
  | showCache
  | refresh
  | startRefresher (every : Span)
  | stopRefresher
  | startRecoverer (engine name : String) (c : RecovererSettings)
  | showRecoverer (name : String)
  | stopRecoverer (name : String) (deadline : Span)
  | startDelayer (engine name : String) (c : DelayerSettings)
  | showDelayer (name : String)
  | stopDelayer (name : String) (deadline : Span)
  | startService (name : String) (c : ServiceSettings)
  /-- Commits a state with a transition to a step and executes it. -/
  | startState (name : String) (d : DraftRecipe) (target : StepId) (save : Option String)
  | showService (name : String)
  | stopService (name : String) (deadline : Span)

inductive Answer where
  | done
  | failed (f : Fault)
  | commands (parts : List Command)
  /-- A commit failed: whether the conflict names the state of each part, and the bundle as it was
  left, if it was at hand. -/
  | refused (f : Fault) (named : List Bool) (left : Option (List Command))
  | revisions (first last : Int)
  | draft (d : Draft)
  | states (page : Page State)
  | pageRevisions (page : Page State)
  | log (entries : List State)
  | delayedPage (page : Page Delayed)
  | delayed (item : Delayed)
  | stored (b : Blob)
  | found (b : Blob)
  | calls (counts : List (Method × Nat))
  | command (c : Command)
  | commandFailed (f : Fault) (left : Command)
  | running (n : Nat)
  | time (t : Instant)
  | engine (e : Engine) (now : Instant)
  | registered
  /-- The state that a watcher handed out, the revision it got to, and the time. -/
  | received (s : Option State) (sinceRev : Int) (now : Instant)
  /-- A cache, and how many commits went on to the store. -/
  | cache (c : Cache) (commits : Nat)
  | read (n : Nat)
  /-- Whether a task came to its end without breaking down. -/
  | ended (well : Bool)
  | recoverer (r : Recoverer)
  | recovererActivity (r : Recoverer)
  | delayer (d : Delayer)
  | delayerActivity (d : Delayer)
  | service (r : Recoverer) (d : Delayer) (e : Engine)
  | senseless
  | broken

def Answer.ofOutcome {α : Type} (outcome : Except Fault α) (f : α → Answer) : Answer :=
  match outcome with
  | .ok a => f a
  | .error fault => .failed fault

/-- What is seen after a step: the answer, the head of the log, how many states are delayed, and
what steps reported. -/
structure Sight where
  answer : Answer
  head : Int
  delayed : Nat
  reports : List Report

end Workflow.Scenario
