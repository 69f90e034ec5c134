import Workflow.Command
import Workflow.Base64
import Workflow.Document
import Workflow.Fault
import Workflow.Marks
import Workflow.Reference

/-!
# Local effects of commands

What a command does to its own draft, without a store: transitions and marks, stacking drafts,
noting references. A command that fails stays as it was. A bundle is checked as a whole before it is
run.
-/

set_option autoImplicit false

namespace Workflow

/-- The draft after a transition of the life cycle, with the notes of the command and its mark. -/
def Draft.advance (d : Draft) (target : StepId) (annotations : Notes) (mark : Option String) :
    Draft :=
  let annotations := match mark with
    | some mark => annotations.insert Mark.lifecycle mark
    | none => annotations
  d.move ⟨d.current.transition.target, target, annotations⟩

namespace DelayRequest

/-- The copy of a state that a request stores, and when it is due. The copy keeps the revision of
the state; if that is paused, the copy is marked as resumed. -/
def snapshot (r : DelayRequest) (base : State) (now : Instant) : State × Instant :=
  let dueAt := r.dueAt.getD (now + r.after)
  let here := base.transition.target
  let noted := (((⟨here, r.target.getD here, r.annotations⟩ : Transition).annotate
    Mark.delayAt dueAt.format).annotate
    Mark.delayDuration r.after.toText).annotate
    Mark.delayCommit (toString r.commits)
  let next := if base.isPaused then noted.annotate Mark.lifecycle Mark.resumed else noted
  ({ base with transition := next }, dueAt)

end DelayRequest

namespace Command

/-- Writes the stacked draft into the note of the carrier, which has to be free. -/
def applyStack (carrier stacked : Draft) (note : String) : Except Fault Command :=
  if (carrier.current.annotations.get? note).any (· ≠ "") then
    .error (.invalid (.occupied note))
  else
    let text := String.ofList (Base64.encode stacked.toDocument)
    .ok (stack (carrier.annotate note text) stacked note)

/-- Takes the stacked draft out of the note of the carrier. -/
def applyUnstack (carrier : Draft) (note : String) : Except Fault Command :=
  match (carrier.current.annotations.get? note).filter (· ≠ "") with
  | none => .error (.notFound (.stacked note))
  | some text =>
    match Base64.decode? text.toList with
    | none => .error (.invalid .corrupt)
    | some bytes =>
      match Draft.ofDocument? bytes with
      | none => .error .malformed
      | some stacked =>
        let emptied := carrier.update fun s => { s with annotations := s.annotations.erase note }
        .ok (unstack emptied note (some stacked))

/-- Notes a reference to the blob, which has to be stored already. -/
def applyRefer (draft : Draft) (blob : Blob) (note : String) : Except Fault Command :=
  if blob.id.isEmpty || blob.rev ≤ 0 then .error (.invalid .notStored)
  else .ok (refer (draft.annotate note (Reference.format blob.id blob.rev)) blob note)

def applyDeref (draft : Draft) (note : String) : Except Fault Command :=
  match draft.current.note? note with
  | none => .error (.notFound (.note note))
  | some raw => do
    let (id, rev) ← Reference.parse raw
    .ok (deref draft note (some (.reference id rev)))

/-- The command after its local effect. -/
def apply : Command → Except Fault Command
  | transit d target annotations =>
    if target.isEmpty then .error (.invalid .noTarget)
    else .ok (transit (d.advance target annotations none) target annotations)
  | pause d target annotations =>
    let step := target.getD d.current.transition.target
    .ok (pause (d.advance step annotations (some Mark.paused)) target annotations)
  | resume d target annotations =>
    let step := target.getD d.current.transition.target
    .ok (resume (d.advance step annotations (some Mark.resumed)) target annotations)
  | finish d annotations =>
    .ok (finish (d.advance default annotations (some Mark.ended)) annotations)
  | stack carrier stacked note => applyStack carrier stacked note
  | unstack carrier note _ => applyUnstack carrier note
  | refer d blob note => applyRefer d blob note
  | deref d note _ => applyDeref d note
  | c => .ok c

/-- Whether no bundle may hold the command. -/
def barredFromBundle : Command → Bool
  | bundle .. | execute .. | listStates .. | listDelayed .. => true
  | _ => false

def isAnonymous (c : Command) : Bool := c.draft?.any (·.id.isEmpty)

def validateParts : List Command → Except Fault Unit
  | [] => .ok ()
  | c :: rest =>
    if c.barredFromBundle then .error (.invalid (.notInBundle c.name))
    else if c.isAnonymous then .error (.invalid (.anonymous c.name))
    else validateParts rest

/-- Checks a bundle: it holds something, nothing that no bundle may hold, and no state without
identity. -/
def validateBundle (parts : List Command) : Except Fault Unit :=
  if parts.isEmpty then .error (.invalid .emptyBundle) else validateParts parts

end Command

end Workflow
