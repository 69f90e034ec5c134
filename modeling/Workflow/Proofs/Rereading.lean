import Workflow.Proofs.Document

/-!
# Documents are exact

What is written of transitions, states, drafts, delayed states and blobs tells everything about
them: each is read back from its text, so that different ones have different texts, and a text that
is accepted can be replaced by the one that is written of its value.
-/

set_option autoImplicit false

namespace Workflow

namespace Document

variable {α : Type}

/-- The text of a value. -/
def text (toJson : α → Json) (a : α) : List UInt8 := (toJson a).write

/-- The value of a text, if the text is accepted. -/
def value? (ofJson? : Json → Option α) (bytes : List UInt8) : Option α :=
  (Json.read? bytes).bind ofJson?

/-- The documents of all values that fit are exact. -/
structure Exact (toJson : α → Json) (ofJson? : Json → Option α) (Fits : α → Prop) : Prop where
  /-- A value is read back from its text. -/
  reads : ∀ a, Fits a → value? ofJson? (text toJson a) = some a
  /-- A text is that of one value. -/
  tells : ∀ a b, Fits a → Fits b → text toJson a = text toJson b → a = b
  /-- Every text that is accepted has the value of the text that is written of its value. -/
  rereads : ∀ bytes a, value? ofJson? bytes = some a → value? ofJson? (text toJson a) = some a

theorem Exact.of_plain {toJson : α → Json} {ofJson? : Json → Option α} {Fits : α → Prop}
    (hplain : ∀ a, (toJson a).Plain) (hback : ∀ a, Fits a → ofJson? (toJson a) = some a)
    (hfits : ∀ j a, ofJson? j = some a → Fits a) : Exact toJson ofJson? Fits := by
  have hreads : ∀ a, Fits a → value? ofJson? (text toJson a) = some a := by
    intro a ha
    rw [value?, text, Json.read?_write (hplain a), Option.bind_some, hback a ha]
  refine ⟨hreads, fun a b ha hb htext => ?_, fun bytes a hread => ?_⟩
  · have hsame : some a = some b := by
      rw [← hreads a ha, htext, hreads b hb]
    exact Option.some.inj hsame
  · obtain ⟨j, -, hvalue⟩ := Option.bind_eq_some_iff.1 hread
    exact hreads a (hfits j a hvalue)

/-- The documents of all transitions are exact, and those of all states, drafts, delayed states and
blobs whose revisions and offsets are signed 64-bit words. -/
theorem documents_are_exact :
    Exact Transition.toJson Transition.ofJson? (fun _ => True) ∧
    Exact State.toJson State.ofJson? State.HasWord ∧
    Exact Draft.toJson Draft.ofJson? Draft.HasWords ∧
    Exact Delayed.toJson Delayed.ofJson? Delayed.HasWords ∧
    Exact Blob.toJson Blob.ofJson? Blob.HasWord := by
  refine ⟨.of_plain Transition.plain_toJson ?_ ?_, .of_plain State.plain_toJson ?_ ?_,
    .of_plain Draft.plain_toJson ?_ ?_, .of_plain Delayed.plain_toJson ?_ ?_,
    .of_plain Blob.plain_toJson ?_ ?_⟩
  · exact fun t _ => t.ofJson?_toJson
  · exact fun _ _ _ => trivial
  · exact fun _ => State.ofJson?_toJson
  · exact fun _ _ => State.hasWord_of_ofJson?
  · exact fun _ => Draft.ofJson?_toJson
  · exact fun _ _ => Draft.hasWords_of_ofJson?
  · exact fun _ => Delayed.ofJson?_toJson
  · exact fun _ _ => Delayed.hasWords_of_ofJson?
  · exact fun _ => Blob.ofJson?_toJson
  · exact fun _ _ => Blob.hasWord_of_ofJson?

/-- A state without a commit time and with the least revision, a blank label that is not left out,
and a text of a blob that lists its fields and escapes a letter. -/
theorem documents_are_exact_of_labels :
    let s : State := ⟨⟨"\"é\u0001"⟩, Int64.minValue.toInt, ∅, ∅, default, none⟩
    value? State.ofJson? (text State.toJson s) = some s ∧
    text State.toJson { (default : State) with labels := SortedMap.insert ∅ "" "\n" } ≠
      text State.toJson default ∧
    value? Blob.ofJson? "[\"\\u0064\", 3, true, [0, 255]]".toUTF8.toList =
      value? Blob.ofJson? (text Blob.toJson ⟨⟨"d"⟩, 3, true, [0, 255]⟩) := by
  intro s
  obtain ⟨-, hstate, -, -, hblob⟩ := documents_are_exact
  refine ⟨hstate.reads _ rfl, fun htext => ?_, ?_⟩
  · refine absurd (hstate.tells _ _ ?_ ?_ htext) (by decide)
    · rfl
    · rfl
  · have hread : value? Blob.ofJson? "[\"\\u0064\", 3, true, [0, 255]]".toUTF8.toList =
        some ⟨⟨"d"⟩, 3, true, [0, 255]⟩ := by
      decide +kernel
    rw [hread, hblob.rereads _ _ hread]

end Document

end Workflow
