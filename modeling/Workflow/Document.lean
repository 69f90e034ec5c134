import Workflow.State
import Workflow.Instant.Text
import Workflow.Json.Reader
import Workflow.Json.Writer

/-!
# Documents

The JSON forms of transitions, states, drafts, delayed states and blobs. Empty notes and histories
are not written and may be missing when read; the commit time is written as `null` when there is
none and may be missing as well. All other fields are required, and each occurs once.
-/

set_option autoImplicit false

namespace Workflow

open Json (fields?)

namespace Document

/-- A field that is left out when it says nothing. -/
def optional (skip : Bool) (name : String) (value : Json) : List (String × Json) :=
  if skip then [] else [(name, value)]

def ofNotes (m : Notes) : Json := .obj (m.entries.map fun (k, v) => (k, .str v))

/-- Notes from an object; of members with one name the last counts. -/
def notes? : Json → Option Notes
  | .obj members => do
    let entries ← members.mapM fun (k, v) => v.text?.map fun v => (k, v)
    some (SortedMap.ofList entries)
  | _ => none

def optionalNotes? : Option Json → Option Notes
  | some j => notes? j
  | none => some ∅

def ofInstant (t : Instant) : Json := .str (t.toText .zulu)

def instant? (j : Json) : Option Instant := j.text?.bind Instant.parseLoose?

/-- A commit time, which may be missing or `null`. -/
def optionalInstant? : Option Json → Option (Option Instant)
  | none => some none
  | some .null => some none
  | some j => (instant? j).map some

def ident? {kind : IdentKind} (j : Json) : Option (Ident kind) := j.text?.map Ident.mk

end Document

open Document

def Transition.toJson (t : Transition) : Json :=
  .obj ([("from", .str t.source.text), ("to", .str t.target.text)] ++
    optional t.annotations.isEmpty "annotations" (ofNotes t.annotations))

def Transition.ofJson? (j : Json) : Option Transition := do
  match ← fields? ["from", "to", "annotations"] j with
  | [some source, some target, annotations] =>
    some ⟨← ident? source, ← ident? target, ← optionalNotes? annotations⟩
  | _ => none

def State.toJson (s : State) : Json :=
  .obj ([("id", .str s.id.text), ("rev", .int s.rev)] ++
    optional s.annotations.isEmpty "annotations" (ofNotes s.annotations) ++
    optional s.labels.isEmpty "labels" (ofNotes s.labels) ++
    [("transition", s.transition.toJson),
      ("committed_at", (s.committedAt.map ofInstant).getD .null)])

def State.ofJson? (j : Json) : Option State := do
  match ← fields? ["id", "rev", "annotations", "labels", "transition", "committed_at"] j with
  | [some id, some rev, annotations, labels, some transition, committedAt] =>
    some ⟨← ident? id, ← rev.int64?, ← optionalNotes? annotations, ← optionalNotes? labels,
      ← Transition.ofJson? transition, ← optionalInstant? committedAt⟩
  | _ => none

def Draft.toJson (d : Draft) : Json :=
  .obj ([("current", d.current.toJson), ("committed", d.committed.toJson)] ++
    optional d.history.isEmpty "transitions" (.arr (d.history.map Transition.toJson)))

def Draft.ofJson? (j : Json) : Option Draft := do
  match ← fields? ["current", "committed", "transitions"] j with
  | [some current, some committed, history] =>
    some ⟨← State.ofJson? current, ← State.ofJson? committed,
      ← (history.elim (some []) (·.list? Transition.ofJson?))⟩
  | _ => none

def Delayed.toJson (d : Delayed) : Json :=
  .obj [("state", d.state.toJson), ("execute_at", ofInstant d.dueAt), ("offset", .int d.offset)]

def Delayed.ofJson? (j : Json) : Option Delayed := do
  match ← fields? ["state", "execute_at", "offset"] j with
  | [some state, some dueAt, some offset] =>
    some ⟨← State.ofJson? state, ← instant? dueAt, ← offset.int64?⟩
  | _ => none

def Blob.toJson (b : Blob) : Json :=
  .obj [("id", .str b.id.text), ("rev", .int b.rev), ("binary", .bool b.binary),
    ("bytes", .arr (b.bytes.map fun b => .int b.toNat))]

def Blob.ofJson? (j : Json) : Option Blob := do
  match ← fields? ["id", "rev", "binary", "bytes"] j with
  | [some id, some rev, some binary, some bytes] =>
    some ⟨← ident? id, ← rev.int64?, ← binary.bool?,
      ← bytes.list? fun j => (j.int? 0 255).map fun n => UInt8.ofNat n.toNat⟩
  | _ => none

def Draft.toDocument (d : Draft) : List UInt8 := d.toJson.write

def Draft.ofDocument? (bytes : List UInt8) : Option Draft := (Json.read? bytes).bind Draft.ofJson?

end Workflow
