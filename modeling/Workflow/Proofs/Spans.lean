import Workflow.Marks
import Workflow.Proofs.Blank
import Workflow.Proofs.Numeral

/-!
# Reading spans

A span is read exactly from a number of seconds, minutes or hours, with blanks around the number and
around the whole. So a span that was written is read again without its fraction of a second.
-/

set_option autoImplicit false

namespace Workflow

namespace Span

/-- The first text is the second one with its unit, which stands for so many seconds. Without a unit
it counts seconds. -/
inductive Counts : List Char → List Char → Nat → Prop
  | seconds (number : List Char) : Counts (number ++ ['s']) number 1
  | minutes (number : List Char) : Counts (number ++ ['m']) number 60
  | hours (number : List Char) : Counts (number ++ ['h']) number 3600
  | bare {cs : List Char} (h : ∀ c, cs.getLast? = some c → c ≠ 's' ∧ c ≠ 'm' ∧ c ≠ 'h') :
    Counts cs cs 1

/-- The text spells a number of units: a numeral of a 64-bit word without a minus sign, and the
unit. Blanks may stand around the numeral and around the whole. -/
structure Spells (raw : String) (n unit : Nat) : Prop where
  fits : n < UInt64.size
  text : ∃ whole number numeral, Text.Trims raw.toList whole ∧ Counts whole number unit ∧
    Text.Trims number numeral ∧ Numeral.Unsigned numeral n

/-! ### Units -/

theorem splitUnit_eq_iff {cs number : List Char} {unit : Nat} :
    splitUnit cs = (number, unit) ↔ Counts cs number unit := by
  constructor
  · intro h
    unfold splitUnit at h
    split at h
    next hlast =>
      cases h
      obtain ⟨number, rfl⟩ := List.getLast?_eq_some_iff.1 hlast
      rw [List.dropLast_concat]
      exact .seconds number
    next hlast =>
      cases h
      obtain ⟨number, rfl⟩ := List.getLast?_eq_some_iff.1 hlast
      rw [List.dropLast_concat]
      exact .minutes number
    next hlast =>
      cases h
      obtain ⟨number, rfl⟩ := List.getLast?_eq_some_iff.1 hlast
      rw [List.dropLast_concat]
      exact .hours number
    next hs hm hh =>
      cases h
      refine .bare fun c hc => ⟨?_, ?_, ?_⟩
      · rintro rfl
        exact hs hc
      · rintro rfl
        exact hm hc
      · rintro rfl
        exact hh hc
  · intro h
    cases h with
    | seconds => simp only [splitUnit, List.getLast?_concat, List.dropLast_concat]
    | minutes => simp only [splitUnit, List.getLast?_concat, List.dropLast_concat]
    | hours => simp only [splitUnit, List.getLast?_concat, List.dropLast_concat]
    | bare h =>
      unfold splitUnit
      split
      next hlast => exact absurd rfl (h _ hlast).1
      next hlast => exact absurd rfl (h _ hlast).2.1
      next hlast => exact absurd rfl (h _ hlast).2.2
      next => rfl

theorem Counts.eq_or {cs number : List Char} {unit : Nat} (h : Counts cs number unit) :
    cs = number ∨ ∃ c, cs = number ++ [c] ∧ c.utf8Size = 1 := by
  cases h with
  | seconds => exact .inr ⟨'s', rfl, rfl⟩
  | minutes => exact .inr ⟨'m', rfl, rfl⟩
  | hours => exact .inr ⟨'h', rfl, rfl⟩
  | bare => exact .inl rfl

/-! ### What is read -/

theorem spells_iff {raw : String} {n unit : Nat} :
    Spells raw n unit ↔ (splitUnit (Text.trim raw.toList)).2 = unit ∧
      Numeral.word64? (Text.trim (splitUnit (Text.trim raw.toList)).1) = some n := by
  constructor
  · rintro ⟨hfits, whole, number, numeral, hwhole, hcounts, hnumber, hnumeral⟩
    rw [Text.trim_eq_iff.2 hwhole, splitUnit_eq_iff.2 hcounts]
    refine ⟨rfl, ?_⟩
    rw [Text.trim_eq_iff.2 hnumber]
    exact Numeral.natural?_eq_some_iff.2 ⟨hnumeral, hfits⟩
  · rintro ⟨rfl, hread⟩
    obtain ⟨hnumeral, hfits⟩ := Numeral.natural?_eq_some_iff.1 hread
    exact ⟨hfits, _, _, _, Text.trims_trim _, splitUnit_eq_iff.1 rfl, Text.trims_trim _, hnumeral⟩

theorem parse?_eq_some_iff {raw : String} {d : Span} :
    parse? raw = some d ↔ ∃ n unit, Spells raw n unit ∧ d = ofSecs (n * unit % UInt64.size) := by
  have hparse : parse? raw =
      (Numeral.word64? (Text.trim (splitUnit (Text.trim raw.toList)).1)).map fun n =>
        ofSecs (n * (splitUnit (Text.trim raw.toList)).2 % UInt64.size) := rfl
  rw [hparse, Option.map_eq_some_iff]
  constructor
  · rintro ⟨n, hread, rfl⟩
    exact ⟨n, _, spells_iff.2 ⟨rfl, hread⟩, rfl⟩
  · rintro ⟨n, unit, hspells, rfl⟩
    obtain ⟨rfl, hread⟩ := spells_iff.1 hspells
    exact ⟨n, hread, rfl⟩

theorem Spells.unique {raw : String} {n n' unit unit' : Nat} (h : Spells raw n unit)
    (h' : Spells raw n' unit') : n = n' ∧ unit = unit' := by
  obtain ⟨hunit, hread⟩ := spells_iff.1 h
  obtain ⟨hunit', hread'⟩ := spells_iff.1 h'
  exact ⟨Option.some.inj (hread.symm.trans hread'), hunit.symm.trans hunit'⟩

/-! ### What is written -/

theorem secs_lt_of_fits {d : Span} (h : d.fits = true) : d.secs < UInt64.size := by
  have hlt : d.nanos < UInt64.size * perSecond := of_decide_eq_true h
  exact Nat.div_lt_of_lt_mul (Nat.mul_comm _ _ ▸ hlt)

theorem spells_toText {d : Span} (h : d.fits = true) : Spells d.toText d.secs 1 := by
  have hdigits := Numeral.digits_toDigits d.secs
  have htext : d.toText.toList = Nat.toDigits 10 d.secs ++ ['s'] := by
    rw [toText, String.toList_append]
    exact congrArg (· ++ ['s']) Nat.toList_repr
  have hfirst (rest : List Char) {c : Char}
      (hc : (Nat.toDigits 10 d.secs ++ rest).head? = some c) : Text.isBlank c = false := by
    rw [List.head?_append, List.head?_eq_some_head hdigits.nonempty] at hc
    cases hc
    exact Text.isBlank_of_isDigit (hdigits.digits _ (List.head_mem _))
  have hnumber : Text.Trimmed (Nat.toDigits 10 d.secs) := by
    refine ⟨fun c hc => hfirst [] (by rwa [List.append_nil]), fun c hc => ?_⟩
    exact Text.isBlank_of_isDigit (hdigits.digits c (List.mem_of_getLast? hc))
  have hwhole : Text.Trimmed (Nat.toDigits 10 d.secs ++ ['s']) := by
    refine ⟨fun c hc => hfirst _ hc, fun c hc => ?_⟩
    rw [List.getLast?_concat] at hc
    cases hc
    rfl
  refine ⟨secs_lt_of_fits h, _, _, _, ?_, .seconds (Nat.toDigits 10 d.secs), hnumber.trims,
    .bare hdigits⟩
  rw [htext]
  exact hwhole.trims

theorem parse?_toText {d : Span} (h : d.fits = true) : parse? d.toText = some (ofSecs d.secs) := by
  refine parse?_eq_some_iff.2 ⟨d.secs, 1, spells_toText h, ?_⟩
  rw [Nat.mul_one, Nat.mod_eq_of_lt (secs_lt_of_fits h)]

end Span

theorem Draft.retryAfter?_setRetryAfter {d : Draft}
    (hfree : d.current.transition.note? Mark.recoveryRetryAfter = none) {after : Span}
    (hfits : after.fits = true) :
    (d.setRetryAfter after).current.retryAfter? = some (.ofSecs after.secs) := by
  have hnote : (d.setRetryAfter after).current.note? Mark.recoveryRetryAfter = some after.toText :=
    State.note?_annotate_self after.toText hfree
  rw [State.retryAfter?, hnote, Option.bind_some, Span.parse?_toText hfits]

namespace Span

/-- A span is read exactly from the texts that spell a number of units, and is that many seconds of
a 64-bit word; no text spells two numbers or two units, and a unit that is cut off takes one byte.
A span that is written is read again without its fraction of a second, also from the note that asks
for another attempt, unless the transition has a note of that name. -/
theorem parse_reads_exactly_spans :
    (∀ raw d, parse? raw = some d ↔
      ∃ n unit, Spells raw n unit ∧ d = ofSecs (n * unit % UInt64.size)) ∧
    (∀ raw, parse? raw = none ↔ ∀ n unit, ¬ Spells raw n unit) ∧
    (∀ raw n n' unit unit', Spells raw n unit → Spells raw n' unit' → n = n' ∧ unit = unit') ∧
    (∀ cs number unit, Counts cs number unit →
      cs = number ∨ ∃ c, cs = number ++ [c] ∧ c.utf8Size = 1) ∧
    ∀ d : Span, d.fits = true →
      parse? d.toText = some (ofSecs d.secs) ∧
        ∀ draft : Draft, draft.current.transition.note? Mark.recoveryRetryAfter = none →
          (draft.setRetryAfter d).current.retryAfter? = some (ofSecs d.secs) := by
  refine ⟨fun _ _ => parse?_eq_some_iff, fun raw => ?_, fun _ _ _ _ _ => Spells.unique,
    fun _ _ _ => Counts.eq_or, fun d hfits => ⟨parse?_toText hfits, fun draft hfree => ?_⟩⟩
  · constructor
    · intro hnone n unit hspells
      rw [parse?_eq_some_iff.2 ⟨n, unit, hspells, rfl⟩] at hnone
      cases hnone
    · intro hno
      rw [Option.eq_none_iff_forall_ne_some]
      intro d hsome
      obtain ⟨n, unit, hspells, -⟩ := parse?_eq_some_iff.1 hsome
      exact hno n unit hspells
  · exact Draft.retryAfter?_setRetryAfter hfree hfits

/-- Blanks and a sign around the number, a number beyond a 64-bit word, a unit alone, and almost two
seconds that were written. -/
theorem parse_reads_exactly_spans_of_minutes :
    Spells " \t+2\u00a0m\n" 2 60 ∧ (∀ n unit, ¬ Spells "18446744073709551616" n unit) ∧
      (∀ n unit, ¬ Spells "h" n unit) ∧ parse? (toText ⟨1999999999⟩) = some (ofSecs 1) ∧
      ((default : Draft).setRetryAfter ⟨1999999999⟩).current.retryAfter? = some (ofSecs 1) := by
  obtain ⟨hread, hnone, hunique, -, hback⟩ := parse_reads_exactly_spans
  obtain ⟨hparse, hset⟩ := hback ⟨1999999999⟩ (by decide)
  refine ⟨?_, (hnone _).1 (by decide +kernel), (hnone _).1 (by decide +kernel), hparse,
    hset default (by decide)⟩
  exact spells_iff.2 (by decide +kernel)

end Span

end Workflow
