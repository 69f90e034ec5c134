import Workflow.Query

/-!
# Commands

What a step asks the engine to do. Commands of the life cycle and of notes change their draft in
place (`Workflow.Command.Apply`); queries carry their answer once they have one. A bundle holds
commands that take effect together or not at all.
-/

set_option autoImplicit false

namespace Workflow

/-- A request to continue with a copy of a state later. -/
structure DelayRequest where
  draft : Draft
  /-- The step to continue at; without one, the current step. -/
  target : Option StepId
  after : Span
  dueAt : Option Instant
  commits : Bool
  annotations : Notes
  result : Option Delayed
  deriving DecidableEq

inductive Command where
  | transit (draft : Draft) (target : StepId) (annotations : Notes)
  /-- Pauses, to be resumed at the given or the current step. -/
  | pause (draft : Draft) (target : Option StepId) (annotations : Notes)
  | resume (draft : Draft) (target : Option StepId) (annotations : Notes)
  | finish (draft : Draft) (annotations : Notes)
  /-- Keeps the state as it is, without a transition. -/
  | keep (draft : Draft)
  | delay (request : DelayRequest)
  | execute (draft : Draft)
  | noop
  | stack (carrier stacked : Draft) (note : String)
  | unstack (carrier : Draft) (note : String) (result : Option Draft)
  | storeBlob (blob : Blob)
  | fetchBlob (blob : Blob)
  | refer (draft : Draft) (blob : Blob) (note : String)
  | deref (draft : Draft) (note : String) (blob : Option Blob)
  /-- Looks up a revision of a state; revision `0` stands for the latest. -/
  | findState (id : StateId) (rev : Int) (result : Option Draft)
  | findLabelled (labels : Notes) (result : Option Draft)
  | listStates (query : StateQuery) (result : Option (Page State))
  | listDelayed (query : DelayQuery) (result : Option (Page Delayed))
  | bundle (parts : List Command)

namespace Command

instance : Inhabited Command := ⟨noop⟩

def name : Command → String
  | transit .. => "transit"
  | pause .. => "pause"
  | resume .. => "resume"
  | finish .. => "end"
  | keep .. => "commit_state_ctx"
  | delay .. => "delay"
  | execute .. => "execute"
  | noop => "noop"
  | stack .. => "stack"
  | unstack .. => "unstack"
  | storeBlob .. => "store_data"
  | fetchBlob .. => "get_data"
  | refer .. => "reference_data"
  | deref .. => "dereference_data"
  | findState .. => "get_state_by_id"
  | findLabelled .. => "get_state_by_labels"
  | listStates .. => "get_states"
  | listDelayed .. => "get_delayed_states"
  | bundle .. => "commit"

def draft? : Command → Option Draft
  | transit d .. | pause d .. | resume d .. | finish d .. | keep d | execute d
  | stack d .. | unstack d .. | refer d .. | deref d .. => some d
  | delay r => some r.draft
  | _ => none

/-- The command with another draft to act on; one without a draft stays as it is. -/
def withDraft (d : Draft) : Command → Command
  | transit _ target annotations => transit d target annotations
  | pause _ target annotations => pause d target annotations
  | resume _ target annotations => resume d target annotations
  | finish _ annotations => finish d annotations
  | keep _ => keep d
  | delay r => delay { r with draft := d }
  | execute _ => execute d
  | stack _ stacked note => stack d stacked note
  | unstack _ note result => unstack d note result
  | refer _ blob note => refer d blob note
  | deref _ note blob => deref d note blob
  | c => c

/-- Whether the command, as part of a bundle, adds a revision of its state to the log. -/
def isTracked : Command → Bool
  | transit .. | pause .. | resume .. | finish .. | keep .. => true
  | _ => false

def continues : Command → Bool
  | transit .. | resume .. | keep .. => true
  | _ => false

/-- The first draft of each identity, in order. -/
def firstOfEach : (seen : List StateId) → List Draft → List Draft
  | _, [] => []
  | seen, d :: rest =>
    if seen.contains d.id then firstOfEach seen rest else d :: firstOfEach (d.id :: seen) rest

/-- The drafts that an execution goes on with after the command; of a bundle, one for each identity
with a part that continues it. -/
def continuations : Command → List Draft
  | bundle parts => firstOfEach [] ((parts.filter continues).filterMap draft?)
  | execute d => [d]
  | c => if c.continues then c.draft?.toList else []

mutual

/-- The draft that results from a command: its own, the one it looked up, or that of the first part
of a bundle that has one. -/
def resulting? : Command → Option Draft
  | bundle parts => firstResulting? parts
  | findState _ _ result => result
  | findLabelled _ result => result
  | transit d .. | pause d .. | resume d .. | finish d .. | keep d | execute d
  | stack d .. | unstack d .. | refer d .. | deref d .. => some d
  | delay r => some r.draft
  | noop | storeBlob _ | fetchBlob _ | listStates .. | listDelayed .. => none

def firstResulting? : List Command → Option Draft
  | [] => none
  | c :: rest => (resulting? c).orElse fun _ => firstResulting? rest

end

end Command

end Workflow
