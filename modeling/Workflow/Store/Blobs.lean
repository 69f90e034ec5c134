import Workflow.Fault
import Workflow.State

/-!
# Blobs

The stored blobs, each with all its revisions: revision `n` is the `n`-th that was stored under the
identity. A blob that is stored without an identity gets a fresh one.
-/

set_option autoImplicit false

namespace Workflow

/-- A hexadecimal number of at least the given number of digits. -/
def BlobId.hex (width n : Nat) : String :=
  let digits := Nat.toDigits 16 n
  String.ofList (List.replicate (width - digits.length) '0' ++ digits)

/-- The `n`-th identity that is given out: a unique identifier of version 4. -/
def BlobId.generated (n : Nat) : BlobId := ⟨"00000000-0000-4000-8000-" ++ BlobId.hex 12 n⟩

structure Blobs where
  revisions : SortedMap BlobId (List Blob)
  /-- How many identities were given out. -/
  issued : Nat
  deriving DecidableEq

namespace Blobs

def empty : Blobs := ⟨∅, 0⟩

instance : Inhabited Blobs := ⟨empty⟩

/-- The stored revisions of an identity, oldest first. -/
def of (b : Blobs) (id : BlobId) : List Blob := (b.revisions.get? id).getD []

def push (b : Blobs) (blob : Blob) : Blobs :=
  { b with revisions := b.revisions.insert blob.id (b.of blob.id ++ [blob]) }

theorem of_push_self (b : Blobs) (blob : Blob) :
    (b.push blob).of blob.id = b.of blob.id ++ [blob] := by
  simp [of, push, SortedMap.get?_insert_self]

theorem of_push_of_ne (b : Blobs) {blob : Blob} {id : BlobId} (h : id ≠ blob.id) :
    (b.push blob).of id = b.of id := by
  simp [of, push, SortedMap.get?_insert_of_ne _ _ h]

/-- The blob under its identity, fresh if it has none. -/
def identify (issued : Nat) (blob : Blob) : Blob × Nat :=
  if blob.id.isEmpty then ({ blob with id := .generated (issued + 1) }, issued + 1)
  else (blob, issued)

/-- The blob under its identity and the next revision, after those that are stored already and those
that are about to be. -/
def number (b : Blobs) (ahead : List Blob) (blob : Blob) : Blob :=
  { blob with rev := (b.of blob.id).length + 1 + (ahead.filter (·.id = blob.id)).length }

/-- Stores a blob under its identity, fresh if it has none, and answers the stored revision. -/
def store (b : Blobs) (blob : Blob) : Blobs × Blob :=
  let (blob, issued) := identify b.issued blob
  let blob := b.number [] blob
  ({ b with issued := issued }.push blob, blob)

/-- A revision of a blob; revision `0` stands for the latest. -/
def fetch (b : Blobs) (id : BlobId) (rev : Int) : Except Fault Blob :=
  match b.revisions.get? id with
  | none => .error (.notFound (.blob id))
  | some revisions =>
    let found :=
      if rev = 0 then revisions.getLast? else if 1 ≤ rev then revisions[(rev - 1).toNat]? else none
    match found with
    | some blob => .ok blob
    | none => .error (.notFound (.blobRevision id rev))

end Blobs

end Workflow
