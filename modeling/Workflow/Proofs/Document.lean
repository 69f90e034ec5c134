import Workflow.Document
import Workflow.Proofs.Json
import Workflow.Proofs.Written

/-!
# Documents are read as they were written

A draft is read back from its document as it was: fields that are left out when they say nothing are
filled in again. Revisions have to be those of signed 64-bit words, as all are that a store assigns.
-/

set_option autoImplicit false

namespace Workflow

namespace Document

open Json

/-! ### Notes and instants -/

theorem notes?_ofNotes (m : Notes) : notes? (ofNotes m) = some m := by
  rw [ofNotes, notes?, mapM_map_eq_some]
  · exact congrArg some (SortedMap.ofList_entries m)
  · exact fun _ _ => rfl

theorem plain_ofNotes (m : Notes) : (ofNotes m).Plain := by
  refine .obj fun e he => ?_
  obtain ⟨⟨k, v⟩, -, rfl⟩ := List.mem_map.1 he
  exact .str v

/-- A field that is left out when it says nothing, as it is found when it is read. -/
def shown (skip : Bool) (value : Json) : Option Json := if skip then none else some value

theorem optionalNotes?_shown (m : Notes) :
    optionalNotes? (shown m.isEmpty (ofNotes m)) = some m := by
  cases hempty : m.isEmpty with
  | true => exact congrArg some (SortedMap.ext (List.isEmpty_iff.1 hempty).symm)
  | false => exact notes?_ofNotes m

theorem instant?_ofInstant (t : Instant) : instant? (ofInstant t) = some t := by
  rw [ofInstant, instant?, Json.text?, Option.bind_some, Instant.parseLoose?_toText]

theorem optionalInstant?_ofInstant (t : Option Instant) :
    optionalInstant? (some ((t.map ofInstant).getD .null)) = some t := by
  cases t with
  | none => rfl
  | some t => exact congrArg (·.map some) (instant?_ofInstant t)

theorem int?_eq_some_iff {low high n : Int} {j : Json} :
    j.int? low high = some n ↔ j = .int n ∧ low ≤ n ∧ n ≤ high := by
  cases j with
  | int m =>
    rw [Json.int?, Option.ite_none_right_eq_some, Option.some.injEq, Json.int.injEq]
    constructor
    · rintro ⟨hrange, rfl⟩
      exact ⟨rfl, hrange⟩
    · rintro ⟨rfl, hrange⟩
      exact ⟨hrange, rfl⟩
  | _ => exact ⟨nofun, fun h => nomatch h.1⟩

theorem int64?_eq_some_iff {j : Json} {n : Int} :
    j.int64? = some n ↔ j = .int n ∧ Numeral.fitsInt64 n = true := by
  rw [int64?, int?_eq_some_iff, Numeral.fitsInt64, Bool.and_eq_true, decide_eq_true_iff,
    decide_eq_true_iff]

theorem int64?_int {n : Int} (h : Numeral.fitsInt64 n = true) : (Json.int n).int64? = some n :=
  int64?_eq_some_iff.2 ⟨rfl, h⟩

theorem fits_of_int64? {j : Json} {n : Int} (h : j.int64? = some n) :
    Numeral.fitsInt64 n = true :=
  (int64?_eq_some_iff.1 h).2

theorem mem_optional {skip : Bool} {name : String} {value : Json} {m : String × Json}
    (h : m ∈ optional skip name value) : m = (name, value) := by
  cases skip with
  | true => cases h
  | false => exact List.mem_singleton.1 h

end Document

open Document

/-! ### Transitions -/

theorem Transition.fields?_toJson (t : Transition) :
    Json.fields? ["from", "to", "annotations"] t.toJson =
      some [some (.str t.source.text), some (.str t.target.text),
        shown t.annotations.isEmpty (ofNotes t.annotations)] := by
  unfold Transition.toJson Document.optional
  cases t.annotations.isEmpty <;> simp [Json.fields?, Json.member?, shown]

theorem Transition.ofJson?_toJson (t : Transition) : Transition.ofJson? t.toJson = some t := by
  rw [Transition.ofJson?, t.fields?_toJson]
  simp only [Option.bind_eq_bind, Option.bind_some, optionalNotes?_shown]
  rfl

theorem Transition.plain_toJson (t : Transition) : t.toJson.Plain := by
  refine .obj fun m hm => ?_
  simp only [List.cons_append, List.nil_append, List.mem_cons] at hm
  rcases hm with rfl | rfl | hm
  · exact .str _
  · exact .str _
  · rw [mem_optional hm]
    exact plain_ofNotes _

/-! ### States -/

/-- A signed 64-bit word holds the revision. -/
def State.HasWord (s : State) : Prop := Numeral.fitsInt64 s.rev = true

theorem State.fields?_toJson (s : State) :
    Json.fields? ["id", "rev", "annotations", "labels", "transition", "committed_at"] s.toJson =
      some [some (.str s.id.text), some (.int s.rev),
        shown s.annotations.isEmpty (ofNotes s.annotations),
        shown s.labels.isEmpty (ofNotes s.labels), some s.transition.toJson,
        some ((s.committedAt.map ofInstant).getD .null)] := by
  unfold State.toJson Document.optional
  cases s.annotations.isEmpty <;> cases s.labels.isEmpty <;>
    simp [Json.fields?, Json.member?, shown]

theorem State.ofJson?_toJson {s : State} (h : s.HasWord) : State.ofJson? s.toJson = some s := by
  rw [State.ofJson?, s.fields?_toJson]
  simp only [Option.bind_eq_bind, Option.bind_some, optionalNotes?_shown, int64?_int h,
    Transition.ofJson?_toJson, optionalInstant?_ofInstant]
  rfl

theorem State.plain_toJson (s : State) : s.toJson.Plain := by
  refine .obj fun m hm => ?_
  simp only [List.cons_append, List.nil_append, List.mem_cons, List.mem_append,
    List.not_mem_nil, or_false] at hm
  rcases hm with rfl | rfl | (hm | hm) | rfl | rfl
  · exact .str _
  · exact .int _
  · rw [mem_optional hm]
    exact plain_ofNotes _
  · rw [mem_optional hm]
    exact plain_ofNotes _
  · exact s.transition.plain_toJson
  · cases s.committedAt with
    | none => exact .null
    | some t => exact .str _

theorem State.hasWord_of_ofJson? {j : Json} {s : State} (h : State.ofJson? j = some s) :
    s.HasWord := by
  unfold State.ofJson? at h
  obtain ⟨fields, -, h⟩ := Option.bind_eq_some_iff.1 h
  split at h
  next =>
    obtain ⟨id, -, h⟩ := Option.bind_eq_some_iff.1 h
    obtain ⟨rev, hrev, h⟩ := Option.bind_eq_some_iff.1 h
    obtain ⟨annotations, -, h⟩ := Option.bind_eq_some_iff.1 h
    obtain ⟨labels, -, h⟩ := Option.bind_eq_some_iff.1 h
    obtain ⟨transition, -, h⟩ := Option.bind_eq_some_iff.1 h
    obtain ⟨committedAt, -, h⟩ := Option.bind_eq_some_iff.1 h
    cases h
    exact fits_of_int64? hrev
  next => cases h

/-! ### Drafts -/

/-- Signed 64-bit words hold the revisions of the draft. -/
def Draft.HasWords (d : Draft) : Prop := d.current.HasWord ∧ d.committed.HasWord

theorem Draft.fields?_toJson (d : Draft) :
    Json.fields? ["current", "committed", "transitions"] d.toJson =
      some [some d.current.toJson, some d.committed.toJson,
        shown d.history.isEmpty (.arr (d.history.map Transition.toJson))] := by
  unfold Draft.toJson Document.optional
  cases d.history.isEmpty <;> simp [Json.fields?, Json.member?, shown]

theorem Draft.history?_shown (history : List Transition) :
    (shown history.isEmpty (.arr (history.map Transition.toJson))).elim (some [])
      (·.list? Transition.ofJson?) = some history := by
  cases history with
  | nil => rfl
  | cons t history => exact Json.mapM_map_eq_some fun t _ => t.ofJson?_toJson

theorem Draft.ofJson?_toJson {d : Draft} (h : d.HasWords) : Draft.ofJson? d.toJson = some d := by
  rw [Draft.ofJson?, d.fields?_toJson]
  simp only [Option.bind_eq_bind, Option.bind_some, State.ofJson?_toJson h.1,
    State.ofJson?_toJson h.2, Draft.history?_shown]

theorem Draft.plain_toJson (d : Draft) : d.toJson.Plain := by
  refine .obj fun m hm => ?_
  simp only [List.cons_append, List.nil_append, List.mem_cons] at hm
  rcases hm with rfl | rfl | hm
  · exact d.current.plain_toJson
  · exact d.committed.plain_toJson
  · rw [mem_optional hm]
    refine .arr fun j hj => ?_
    obtain ⟨t, -, rfl⟩ := List.mem_map.1 hj
    exact t.plain_toJson

theorem Draft.hasWords_of_ofJson? {j : Json} {d : Draft} (h : Draft.ofJson? j = some d) :
    d.HasWords := by
  unfold Draft.ofJson? at h
  obtain ⟨fields, -, h⟩ := Option.bind_eq_some_iff.1 h
  split at h
  next =>
    obtain ⟨current, hcurrent, h⟩ := Option.bind_eq_some_iff.1 h
    obtain ⟨committed, hcommitted, h⟩ := Option.bind_eq_some_iff.1 h
    obtain ⟨history, -, h⟩ := Option.bind_eq_some_iff.1 h
    cases h
    exact ⟨State.hasWord_of_ofJson? hcurrent, State.hasWord_of_ofJson? hcommitted⟩
  next => cases h

theorem Draft.ofDocument?_toDocument {d : Draft} (h : d.HasWords) :
    Draft.ofDocument? d.toDocument = some d := by
  rw [Draft.ofDocument?, Draft.toDocument, Json.read?_write d.plain_toJson, Option.bind_some,
    Draft.ofJson?_toJson h]

/-! ### Delayed states -/

/-- Signed 64-bit words hold the revision and the offset. -/
def Delayed.HasWords (d : Delayed) : Prop :=
  d.state.HasWord ∧ Numeral.fitsInt64 d.offset = true

theorem Delayed.fields?_toJson (d : Delayed) :
    Json.fields? ["state", "execute_at", "offset"] d.toJson =
      some [some d.state.toJson, some (ofInstant d.dueAt), some (.int d.offset)] := by
  simp [Delayed.toJson, Json.fields?, Json.member?]

theorem Delayed.ofJson?_toJson {d : Delayed} (h : d.HasWords) :
    Delayed.ofJson? d.toJson = some d := by
  rw [Delayed.ofJson?, d.fields?_toJson]
  simp only [Option.bind_eq_bind, Option.bind_some, State.ofJson?_toJson h.1,
    instant?_ofInstant, int64?_int h.2]

theorem Delayed.plain_toJson (d : Delayed) : d.toJson.Plain := by
  refine .obj fun m hm => ?_
  simp only [List.mem_cons, List.not_mem_nil, or_false] at hm
  rcases hm with rfl | rfl | rfl
  · exact d.state.plain_toJson
  · exact .str _
  · exact .int _

theorem Delayed.hasWords_of_ofJson? {j : Json} {d : Delayed} (h : Delayed.ofJson? j = some d) :
    d.HasWords := by
  unfold Delayed.ofJson? at h
  obtain ⟨fields, -, h⟩ := Option.bind_eq_some_iff.1 h
  split at h
  next =>
    obtain ⟨state, hstate, h⟩ := Option.bind_eq_some_iff.1 h
    obtain ⟨dueAt, -, h⟩ := Option.bind_eq_some_iff.1 h
    obtain ⟨offset, hoffset, h⟩ := Option.bind_eq_some_iff.1 h
    cases h
    exact ⟨State.hasWord_of_ofJson? hstate, fits_of_int64? hoffset⟩
  next => cases h

/-! ### Blobs -/

/-- A signed 64-bit word holds the revision. -/
def Blob.HasWord (b : Blob) : Prop := Numeral.fitsInt64 b.rev = true

theorem Blob.fields?_toJson (b : Blob) :
    Json.fields? ["id", "rev", "binary", "bytes"] b.toJson =
      some [some (.str b.id.text), some (.int b.rev), some (.bool b.binary),
        some (.arr (b.bytes.map fun byte => .int byte.toNat))] := by
  simp [Blob.toJson, Json.fields?, Json.member?]

theorem Blob.bytes?_written (bytes : List UInt8) :
    (Json.arr (bytes.map fun byte => .int byte.toNat)).list?
      (fun j => (j.int? 0 255).map fun n => UInt8.ofNat n.toNat) = some bytes := by
  refine Json.mapM_map_eq_some fun byte _ => ?_
  have hread : (Json.int byte.toNat).int? 0 255 = some (byte.toNat : Int) := by
    have hlt := byte.toNat_lt
    exact int?_eq_some_iff.2 ⟨rfl, by omega, by omega⟩
  rw [hread, Option.map_some, Int.toNat_natCast, UInt8.ofNat_toNat]

theorem Blob.ofJson?_toJson {b : Blob} (h : b.HasWord) : Blob.ofJson? b.toJson = some b := by
  rw [Blob.ofJson?, b.fields?_toJson]
  simp only [Option.bind_eq_bind, Option.bind_some, Blob.bytes?_written, int64?_int h]
  rfl

theorem Blob.plain_toJson (b : Blob) : b.toJson.Plain := by
  refine .obj fun m hm => ?_
  simp only [List.mem_cons, List.not_mem_nil, or_false] at hm
  rcases hm with rfl | rfl | rfl | rfl
  · exact .str _
  · exact .int _
  · exact .bool _
  · refine .arr fun j hj => ?_
    obtain ⟨byte, -, rfl⟩ := List.mem_map.1 hj
    exact .int _

theorem Blob.hasWord_of_ofJson? {j : Json} {b : Blob} (h : Blob.ofJson? j = some b) :
    b.HasWord := by
  unfold Blob.ofJson? at h
  obtain ⟨fields, -, h⟩ := Option.bind_eq_some_iff.1 h
  split at h
  next =>
    obtain ⟨id, -, h⟩ := Option.bind_eq_some_iff.1 h
    obtain ⟨rev, hrev, h⟩ := Option.bind_eq_some_iff.1 h
    obtain ⟨binary, -, h⟩ := Option.bind_eq_some_iff.1 h
    obtain ⟨bytes, -, h⟩ := Option.bind_eq_some_iff.1 h
    cases h
    exact fits_of_int64? hrev
  next => cases h

end Workflow
