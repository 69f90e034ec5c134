import Workflow.State
import Workflow.Fault
import Workflow.Text.Numeral

/-!
# References to blobs

An annotation refers to a revision of a blob as `data:` identity `:` revision. The identity may hold
colons itself: the last colon separates the revision.
-/

set_option autoImplicit false

namespace Workflow

namespace Reference

def opening : String := "data:"

/-- The text that refers to a revision of a blob. -/
def format (id : BlobId) (rev : Int) : String := s!"data:{id}:{rev}"

def splitLast? (c : Char) : List Char → Option (List Char × List Char)
  | [] => none
  | x :: rest =>
    match splitLast? c rest with
    | some (before, after) => some (x :: before, after)
    | none => if x = c then some ([], rest) else none

/-- The text after the opening of a reference. -/
def afterOpening? (raw : String) : Option (List Char) :=
  if opening.toList.isPrefixOf raw.toList then some (raw.toList.drop opening.length) else none

/-- Reads a reference. Of several things that are wrong the first of these is reported: the opening,
a missing revision, an unreadable revision, a missing identity. -/
def parse (raw : String) : Except Fault (BlobId × Int) :=
  let bad (why : BadReference) : Except Fault (BlobId × Int) :=
    .error (.invalid (.reference why raw))
  match afterOpening? raw with
  | none => bad .opening
  | some rest =>
    match splitLast? ':' rest with
    | none => bad .noRevision
    | some (id, rev) =>
      match Numeral.int64? rev with
      | none => bad .revision
      | some rev => if id.isEmpty then bad .noBlob else .ok (⟨String.ofList id⟩, rev)

end Reference

end Workflow
