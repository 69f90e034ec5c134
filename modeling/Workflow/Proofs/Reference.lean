import Mathlib.Tactic.Common
import Workflow.Proofs.Numeral
import Workflow.Reference

/-!
# Reading references

A reference is read exactly if it is written as one, and then in one way only: the last colon is the
one before the revision, since a numeral holds none. So every reference that is written is read
again, whatever its identity holds, and no two references are written alike.
-/

set_option autoImplicit false

namespace Workflow

namespace Reference

/-- The text spells a reference: `data:`, an identity, a colon and the numeral of a revision, which
holds no colon itself. -/
structure Spells (raw : String) (id : BlobId) (rev : Int) : Prop where
  named : id.isEmpty = false
  fits : Numeral.fitsInt64 rev = true
  text : ∃ numeral : String, ':' ∉ numeral.toList ∧ Numeral.Signed numeral.toList rev ∧
    raw = "data:" ++ id.text ++ ":" ++ numeral

/-! ### Taking a text apart -/

theorem splitLast?_eq_none_iff {c : Char} {l : List Char} : splitLast? c l = none ↔ c ∉ l := by
  induction l with
  | nil => exact ⟨fun _ => List.not_mem_nil, fun _ => rfl⟩
  | cons x rest ih =>
    rw [splitLast?, List.mem_cons, not_or, ← ih]
    cases splitLast? c rest with
    | some parts => simp
    | none => simp [eq_comm]

theorem splitLast?_eq_some_iff {c : Char} {l before after : List Char} :
    splitLast? c l = some (before, after) ↔ l = before ++ c :: after ∧ c ∉ after := by
  constructor
  · intro h
    induction l generalizing before with
    | nil => cases h
    | cons x rest ih =>
      rw [splitLast?] at h
      split at h
      next front back hrest =>
        cases h
        obtain ⟨rfl, hlast⟩ := ih hrest
        exact ⟨rfl, hlast⟩
      next hrest =>
        split at h
        next hx =>
          cases h
          exact ⟨by rw [hx, List.nil_append], splitLast?_eq_none_iff.1 hrest⟩
        next => cases h
  · rintro ⟨rfl, hlast⟩
    induction before with
    | nil =>
      rw [List.nil_append, splitLast?, splitLast?_eq_none_iff.2 hlast]
      exact if_pos rfl
    | cons x before ih => rw [List.cons_append, splitLast?, ih]

theorem afterOpening?_eq_some_iff {raw : String} {rest : List Char} :
    afterOpening? raw = some rest ↔ raw.toList = opening.toList ++ rest := by
  unfold afterOpening?
  constructor
  · intro h
    split at h
    next hprefix =>
      cases h
      obtain ⟨rest, hrest⟩ := List.isPrefixOf_iff_prefix.1 hprefix
      rw [← hrest]
      rfl
    next => cases h
  · intro h
    rw [if_pos (List.isPrefixOf_iff_prefix.2 ⟨rest, h.symm⟩), h]
    rfl

theorem toList_spelled (id : BlobId) (numeral : String) :
    ("data:" ++ id.text ++ ":" ++ numeral).toList =
      opening.toList ++ (id.text.toList ++ ':' :: numeral.toList) := by
  rw [String.toList_append, String.toList_append, String.toList_append, List.append_assoc,
    List.append_assoc]
  rfl

theorem notMem_of_signed {cs : List Char} {n : Int} (h : Numeral.Signed cs n) : ':' ∉ cs := by
  intro hcolon
  rcases h.isDigit_or hcolon with hdigit | hplus | hminus
  · exact absurd hdigit (by decide)
  · exact absurd hplus (by decide)
  · exact absurd hminus (by decide)

theorem isEmpty_eq (id : BlobId) : id.isEmpty = id.text.toList.isEmpty := by
  rw [Bool.eq_iff_iff, Ident.isEmpty, String.isEmpty_iff, List.isEmpty_iff,
    String.toList_eq_nil_iff]

/-! ### What is read -/

theorem parse_of_spells {raw : String} {id : BlobId} {rev : Int} (h : Spells raw id rev) :
    parse raw = .ok (id, rev) := by
  obtain ⟨hid, hfits, numeral, hcolon, hsigned, rfl⟩ := h
  have hopening := afterOpening?_eq_some_iff.2 (toList_spelled id numeral)
  have hsplit : splitLast? ':' (id.text.toList ++ ':' :: numeral.toList) =
      some (id.text.toList, numeral.toList) :=
    splitLast?_eq_some_iff.2 ⟨rfl, hcolon⟩
  have hrev := Numeral.int64?_eq_some_iff.2 ⟨hsigned, hfits⟩
  rw [isEmpty_eq] at hid
  unfold parse
  simp only [hopening, hsplit, hrev, hid, String.ofList_toList]
  rfl

theorem spells_of_parse {raw : String} {id : BlobId} {rev : Int}
    (h : parse raw = .ok (id, rev)) : Spells raw id rev := by
  unfold parse at h
  split at h
  next => cases h
  next rest hopening =>
    split at h
    next => cases h
    next front back hsplit =>
      split at h
      next => cases h
      next n hrev =>
        split at h
        next => cases h
        next hid =>
          cases h
          obtain ⟨hsigned, hfits⟩ := Numeral.int64?_eq_some_iff.1 hrev
          obtain ⟨rfl, hlast⟩ := splitLast?_eq_some_iff.1 hsplit
          refine ⟨?_, hfits, String.ofList back, ?_, ?_, String.ext ?_⟩
          · rw [isEmpty_eq, String.toList_ofList]
            exact Bool.eq_false_iff.2 hid
          · rwa [String.toList_ofList]
          · rwa [String.toList_ofList]
          · rw [toList_spelled, String.toList_ofList, String.toList_ofList]
            exact afterOpening?_eq_some_iff.1 hopening

theorem parse_eq_ok_iff {raw : String} {id : BlobId} {rev : Int} :
    parse raw = .ok (id, rev) ↔ Spells raw id rev :=
  ⟨spells_of_parse, parse_of_spells⟩

theorem eq_of_parse_eq_error {raw : String} {fault : Fault} (h : parse raw = .error fault) :
    ∃ why, fault = .invalid (.reference why raw) := by
  unfold parse at h
  split at h
  next =>
    cases h
    exact ⟨_, rfl⟩
  next =>
    split at h
    next =>
      cases h
      exact ⟨_, rfl⟩
    next =>
      split at h
      next =>
        cases h
        exact ⟨_, rfl⟩
      next =>
        split at h
        next =>
          cases h
          exact ⟨_, rfl⟩
        next => cases h

/-! ### What is written -/

theorem format_eq (id : BlobId) (rev : Int) :
    format id rev = "data:" ++ id.text ++ ":" ++ toString rev := rfl

theorem spells_format {id : BlobId} {rev : Int} (hid : id.isEmpty = false)
    (hrev : Numeral.fitsInt64 rev = true) : Spells (format id rev) id rev :=
  ⟨hid, hrev, toString rev, notMem_of_signed (Numeral.signed_toString rev),
    Numeral.signed_toString rev, format_eq id rev⟩

theorem eq_of_format_eq {id id' : BlobId} {rev rev' : Int}
    (h : format id rev = format id' rev') : id = id' ∧ rev = rev' := by
  have hsplit (id : BlobId) (rev : Int) :
      splitLast? ':' (id.text.toList ++ ':' :: (toString rev).toList) =
        some (id.text.toList, (toString rev).toList) :=
    splitLast?_eq_some_iff.2 ⟨rfl, notMem_of_signed (Numeral.signed_toString rev)⟩
  have hchars := congrArg String.toList h
  rw [format_eq, format_eq, toList_spelled, toList_spelled] at hchars
  have hsame := congrArg (splitLast? ':') (List.append_cancel_left hchars)
  rw [hsplit, hsplit] at hsame
  obtain ⟨htext, hnumeral⟩ := Prod.mk.inj (Option.some.inj hsame)
  refine ⟨congrArg Ident.mk (String.ext htext), ?_⟩
  exact (Numeral.signed_toString rev).unique (hnumeral ▸ Numeral.signed_toString rev')

/-- A text is read as a reference exactly if it spells that reference, any other is refused with a
fault that names it, and no text spells two references. A reference that is written is read again,
whatever identity and revision it has, and no two are written alike. -/
theorem parse_reads_exactly_references :
    (∀ raw id rev, parse raw = .ok (id, rev) ↔ Spells raw id rev) ∧
    (∀ raw fault, parse raw = .error fault → ∃ why, fault = .invalid (.reference why raw)) ∧
    (∀ raw id rev id' rev', Spells raw id rev → Spells raw id' rev' → id = id' ∧ rev = rev') ∧
    (∀ (id : BlobId) (rev : Int64), id.isEmpty = false →
      parse (format id rev.toInt) = .ok (id, rev.toInt)) ∧
    ∀ id rev id' rev', format id rev = format id' rev' → id = id' ∧ rev = rev' := by
  refine ⟨fun _ _ _ => parse_eq_ok_iff, fun _ _ => eq_of_parse_eq_error, ?_, ?_,
    fun _ _ _ _ => eq_of_format_eq⟩
  · intro raw id rev id' rev' h h'
    have hsame := (parse_of_spells h).symm.trans (parse_of_spells h')
    exact Prod.mk.inj (Except.ok.inj hsame)
  · intro id rev hid
    exact parse_of_spells (spells_format hid (Numeral.fitsInt64_toInt rev))

/-- An identity that looks like a reference, with the least revision and with a plus sign. -/
theorem parse_reads_exactly_references_of_colons :
    let id : BlobId := ⟨"data:7"⟩
    Spells "data:data:7:+007" id 7 ∧ ¬ Spells "data:data:7:" id 7 ∧
      parse (format id (-9223372036854775808)) = .ok (id, -9223372036854775808) := by
  intro id
  obtain ⟨hspells, -, -, hback, -⟩ := parse_reads_exactly_references
  refine ⟨(hspells _ _ _).1 (by decide +kernel), fun h => ?_, hback id Int64.minValue rfl⟩
  exact absurd ((hspells _ _ _).2 h) (by decide +kernel)

end Reference

end Workflow
