import Workflow.Command.Apply
import Workflow.Repository

/-!
# Recipes

Descriptions of drafts, blobs and commands, as a script gives them. They refer to what was saved
under a name before and to what the repository holds, so that they are followed at a repository.
-/

set_option autoImplicit false

namespace Workflow.Scenario

/-- What was saved under names. -/
structure Names where
  drafts : SortedMap String Draft
  blobs : SortedMap String Blob

namespace Names

/-- Nothing was saved. -/
def none : Names := ⟨∅, ∅⟩

/-- The name of the draft at hand. -/
def self : String := "$self"

def withSelf (n : Names) (d : Draft) : Names := { n with drafts := n.drafts.insert self d }

def unknown (name : String) : Fault := .other s!"nothing is saved as {name}"

/-- The draft that was saved under a name. -/
def draft (n : Names) (name : String) : Access Draft :=
  Fault.settle ((n.drafts.get? name).elim (.error (unknown name)) .ok)

/-- The blob that was saved under a name. -/
def blob (n : Names) (name : String) : Access Blob :=
  Fault.settle ((n.blobs.get? name).elim (.error (unknown name)) .ok)

end Names

/-- Changes to a draft. -/
structure Edits where
  notes : Notes
  transitionNotes : Notes
  labels : Notes
  unrecoverable : Bool
  attempt : Option Nat
  maxAttempts : Option Nat
  retryAfter : Option Span

namespace Edits

def setAll (notes : Notes) (set : Draft → String → String → Draft) (d : Draft) : Draft :=
  notes.entries.foldl (fun d e => set d e.1 e.2) d

/-- Makes the changes. -/
def apply (e : Edits) (d : Draft) : Draft :=
  let d := setAll e.notes Draft.annotate d
  let d := setAll e.transitionNotes
    (fun d k v => d.update fun s => { s with transition := s.transition.annotate k v }) d
  let d := setAll e.labels (fun d k v => d.update (·.label k v)) d
  let d := if e.unrecoverable then d.disableRecovery else d
  let d := (e.attempt.map d.setAttempt).getD d
  let d := (e.maxAttempts.map d.setMaxAttempts).getD d
  (e.retryAfter.map d.setRetryAfter).getD d

end Edits

inductive DraftRecipe where
  | named (name : String)
  | given (d : Draft)
  | malformed
  /-- A revision of a state; revision `0` stands for the latest. -/
  | stored (id : StateId) (rev : Int)
  | fork (d : DraftRecipe) (id : StateId)
  | edited (d : DraftRecipe) (edits : Edits)

def DraftRecipe.follow (names : Names) : DraftRecipe → Access Draft
  | named name => names.draft name
  | given d => pure d
  | malformed => throw .malformed
  | stored id rev => Repository.findState id rev
  | fork d id => do return (← d.follow names).forkTo id
  | edited d edits => do return edits.apply (← d.follow names)

inductive BlobRecipe where
  | named (name : String)
  | given (b : Blob)

def BlobRecipe.follow (names : Names) : BlobRecipe → Access Blob
  | named name => names.blob name
  | given b => pure b

inductive CommandRecipe where
  | transit (d : DraftRecipe) (target : StepId) (annotations : Notes)
  | pause (d : DraftRecipe) (target : Option StepId) (annotations : Notes)
  | resume (d : DraftRecipe) (target : Option StepId) (annotations : Notes)
  | finish (d : DraftRecipe) (annotations : Notes)
  | keep (d : DraftRecipe)
  | delay (d : DraftRecipe) (target : Option StepId) (after : Span) (dueAt : Option Instant)
      (commits : Bool) (annotations : Notes)
  | execute (d : DraftRecipe)
  | noop
  | stack (carrier stacked : DraftRecipe) (note : String)
  | unstack (carrier : DraftRecipe) (note : String)
  | storeBlob (b : BlobRecipe)
  | fetchBlob (id : BlobId) (rev : Int)
  | refer (d : DraftRecipe) (b : BlobRecipe) (note : String)
  | deref (d : DraftRecipe) (note : String)
  | findState (id : StateId) (rev : Int)
  | findLabelled (labels : Notes)
  | listStates (q : StateQuery)
  | listDelayed (q : DelayQuery)
  | bundle (parts : List CommandRecipe)

namespace CommandRecipe

mutual

def follow (names : Names) : CommandRecipe → Access Command
  | transit d target annotations => do return .transit (← d.follow names) target annotations
  | pause d target annotations => do return .pause (← d.follow names) target annotations
  | resume d target annotations => do return .resume (← d.follow names) target annotations
  | finish d annotations => do return .finish (← d.follow names) annotations
  | keep d => do return .keep (← d.follow names)
  | delay d target after dueAt commits annotations => do
    return .delay ⟨← d.follow names, target, after, dueAt, commits, annotations, none⟩
  | execute d => do return .execute (← d.follow names)
  | noop => return .noop
  | stack carrier stacked note => do
    return .stack (← carrier.follow names) (← stacked.follow names) note
  | unstack carrier note => do return .unstack (← carrier.follow names) note none
  | storeBlob b => do return .storeBlob (← b.follow names)
  | fetchBlob id rev => return .fetchBlob (.reference id rev)
  | refer d b note => do return .refer (← d.follow names) (← b.follow names) note
  | deref d note => do return .deref (← d.follow names) note none
  | findState id rev => return .findState id rev none
  | findLabelled labels => return .findLabelled labels none
  | listStates q => return .listStates q none
  | listDelayed q => return .listDelayed q none
  | bundle parts => do return .bundle (← followAll names parts)

/-- Follows descriptions of commands in order. -/
def followAll (names : Names) : List CommandRecipe → Access (List Command)
  | [] => return []
  | c :: rest => do
    let c ← follow names c
    let rest ← followAll names rest
    return c :: rest

end

end CommandRecipe

/-- A scripted action of a step. -/
structure Action where
  sleep : Option Span
  edits : Edits
  command : Option CommandRecipe
  tolerant : Bool
  /-- A bundle to commit; the draft at hand becomes its first result. -/
  bundle : Option (List CommandRecipe)

/-- How a scripted step ends. -/
inductive Outcome where
  | command (c : CommandRecipe)
  | fault (f : Fault)

/-- What a scripted step does in one execution. -/
structure Behaviour where
  actions : List Action
  outcome : Outcome

/-- A scripted step: its `n`-th execution behaves as the `n`-th behaviour says, further ones as the
last. -/
structure Play where
  /-- The behaviours that are left, the next one first. -/
  behaviours : List Behaviour

/-- The next behaviour, and the script after it. -/
def Play.next? (p : Play) : Option (Behaviour × Play) :=
  match p.behaviours with
  | [] => none
  | [b] => some (b, p)
  | b :: rest => some (b, ⟨rest⟩)

/-- What a scripted step reports. -/
inductive Report where
  | entered (step : StepId) (id : StateId) (rev : Int) (source : StepId) (attempt : Nat)
      (time : Instant)
  | dispatched (c : Command)
  | failed (f : Fault)

end Workflow.Scenario
