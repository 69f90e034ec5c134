import Mathlib.Algebra.Group.Nat.Defs
import Workflow.Instant.Text
import Workflow.Proofs.Blank
import Workflow.Proofs.Calendar
import Workflow.Proofs.Numeral

/-!
# Instants are read as they were written

An annotation that holds an instant in the years 0 to 9999 is read as that instant; the texts of
other years are not read at all. A document holds any instant, and it is read as it was written.
-/

set_option autoImplicit false

namespace Workflow.Instant

/-! ### Digits -/

theorem length_lastDigits (width n : Nat) : (lastDigits width n).length = width := by
  induction width generalizing n with
  | zero => rfl
  | succ width ih => rw [lastDigits, List.length_append, ih, List.length_singleton]

theorem isDigit_lastDigits {width n : Nat} : ∀ c ∈ lastDigits width n, c.isDigit = true := by
  induction width generalizing n with
  | zero => exact fun _ hc => nomatch hc
  | succ width ih =>
    intro c hc
    rcases List.mem_append.1 hc with hc | hc
    · exact ih c hc
    · rw [List.mem_singleton.1 hc]
      rw [Nat.isDigit_digitChar, decide_eq_true_iff]
      exact Nat.mod_lt _ (by decide)

theorem ofDigitChars_lastDigits (width n : Nat) :
    Nat.ofDigitChars 10 (lastDigits width n) 0 = n % 10 ^ width := by
  induction width generalizing n with
  | zero => rw [lastDigits, Nat.ofDigitChars_nil, Nat.pow_zero, Nat.mod_one]
  | succ width ih =>
    rw [lastDigits, Nat.ofDigitChars_append, ih,
      Nat.ofDigitChars_cons_digitChar_of_lt_ten (Nat.mod_lt n (by decide)), Nat.ofDigitChars_nil,
      Nat.pow_succ', Nat.mod_mul]
    omega

theorem digits?_lastDigits {width n : Nat} (hwidth : 0 < width) (hn : n < 10 ^ width) :
    Numeral.digits? (lastDigits width n) = some n := by
  have hne : lastDigits width n ≠ [] := by
    rw [← List.length_pos_iff, length_lastDigits]
    exact hwidth
  rw [Numeral.digits?_of_isDigit hne isDigit_lastDigits, ofDigitChars_lastDigits,
    Nat.mod_eq_of_lt hn]

theorem takeDigits_append {most : Nat} {cs rest : List Char} (hcs : ∀ c ∈ cs, c.isDigit = true)
    (hlen : cs.length ≤ most)
    (hrest : cs.length = most ∨ ∃ c tail, rest = c :: tail ∧ c.isDigit = false) :
    takeDigits most (cs ++ rest) = (cs, rest) := by
  induction cs generalizing most with
  | nil =>
    rcases hrest with hfull | ⟨c, tail, rfl, hc⟩
    · rw [← hfull]
      rfl
    · cases most with
      | zero => rfl
      | succ most =>
        rw [List.nil_append, takeDigits, if_neg (by simp [hc])]
  | cons c cs ih =>
    cases most with
    | zero => exact absurd hlen (by simp)
    | succ most =>
      have hdigit := hcs c List.mem_cons_self
      have htail : takeDigits most (cs ++ rest) = (cs, rest) :=
        ih (fun d hd => hcs d (List.mem_cons_of_mem c hd)) (by simpa using hlen)
          (by simpa using hrest)
      rw [List.cons_append, takeDigits, if_pos hdigit, htail]

theorem fixed?_lastDigits {width n : Nat} (hwidth : 0 < width) (hn : n < 10 ^ width)
    (rest : List Char) : fixed? width (lastDigits width n ++ rest) = some (n, rest) := by
  have hlen := length_lastDigits width n
  unfold fixed?
  rw [takeDigits_append isDigit_lastDigits (Nat.le_of_eq hlen) (.inl hlen)]
  simp only
  rw [if_pos hlen, digits?_lastDigits hwidth hn, Option.map_some]

theorem number?_append {most n : Nat} {cs rest : List Char} (hcs : ∀ c ∈ cs, c.isDigit = true)
    (hlen : cs.length ≤ most)
    (hrest : cs.length = most ∨ ∃ c tail, rest = c :: tail ∧ c.isDigit = false)
    (hn : Numeral.digits? cs = some n) : number? most (cs ++ rest) = some (n, rest) := by
  unfold number?
  rw [takeDigits_append hcs hlen hrest]
  simp only [hn, Option.map_some]

/-! ### Parts of an instant -/

section

variable {c : Char} (hc : c.isDigit = false) (rest : List Char)

include hc

theorem fraction?_lastDigits {width n : Nat} (hwidth : 0 < width) (hwidth' : width ≤ 9)
    (hn : n < 10 ^ width) :
    fraction? ('.' :: lastDigits width n ++ c :: rest) =
      some (n * 10 ^ (9 - width), c :: rest) := by
  have hlen := length_lastDigits width n
  unfold fraction?
  rw [List.cons_append]
  simp only
  rw [takeDigits_append isDigit_lastDigits (by omega) (.inr ⟨c, rest, rfl, hc⟩)]
  simp only
  rw [digits?_lastDigits hwidth hn, hlen, List.dropWhile_cons_of_neg (by simp [hc])]
  rfl

theorem fraction?_fractionText (hpoint : c ≠ '.') {nanos : Nat} (h : nanos < 1000000000) :
    fraction? (fractionText nanos ++ c :: rest) = some (nanos, c :: rest) := by
  unfold fractionText
  split
  next hzero =>
    rw [hzero, List.nil_append, fraction?]
    exact fun cs heq => hpoint (List.cons.inj heq).1
  next =>
    split
    next =>
      rw [fraction?_lastDigits hc rest (by decide) (by decide) (by omega)]
      congr 2
      omega
    next =>
      split
      next =>
        rw [fraction?_lastDigits hc rest (by decide) (by decide) (by omega)]
        congr 2
        omega
      next =>
        rw [fraction?_lastDigits hc rest (by decide) (by decide) (by omega)]
        congr 2
        omega

end

theorem fixed?_yearText {year : Int} (h : ¬ (0 ≤ year ∧ year ≤ 9999)) (rest : List Char) :
    fixed? 4 (yearText year ++ rest) = none := by
  unfold yearText
  rw [if_neg h]
  split
  · rfl
  · rfl

/-! ### Instants -/

/-- How many leap seconds an instant lies in. -/
def leapSeconds (t : Instant) : Nat := if t.isLeap then 1 else 0

theorem leapSeconds_cases (t : Instant) :
    t.leapSeconds = 0 ∧ t.nanos < 1000000000 ∨
      t.leapSeconds = 1 ∧ 1000000000 ≤ t.nanos ∧ t.nanos < 2000000000 ∧ t.secs % 60 = 59 := by
  have hnanos := t.inRange.2.2
  unfold leapSeconds isLeap
  by_cases hleap : 1000000000 ≤ t.nanos
  · rw [if_pos (decide_eq_true hleap)]
    omega
  · rw [if_neg (by simpa using hleap)]
    omega

def secondOfDay (t : Instant) : Nat := (t.secs % 86400).toNat

theorem secondOfDay_lt (t : Instant) : t.secondOfDay < 86400 := by
  unfold secondOfDay
  omega

theorem secs_eq (t : Instant) : t.secs = t.secs / 86400 * 86400 + t.secondOfDay := by
  unfold secondOfDay
  omega

/-- The fields that the text of an instant shows: in a leap second, second 60. -/
def fields (t : Instant) : Fields :=
  ⟨Civil.ofDays (t.secs / 86400), t.secondOfDay / 3600, t.secondOfDay / 60 % 60,
    t.secondOfDay % 60 + t.leapSeconds, t.nanos - t.leapSeconds * 1000000000, 0⟩

structure Fields.InRange (f : Fields) : Prop where
  date : f.date.Valid
  month : f.date.month < 100
  day : f.date.day < 100
  hour : f.hour ≤ 23
  minute : f.minute ≤ 59
  second : f.second ≤ 60
  nanos : f.nanos < 1000000000
  offset : f.offset = 0

theorem inRange_fields (t : Instant) : t.fields.InRange := by
  have hvalid : t.fields.date.Valid := Civil.valid_ofDays (t.secs / 86400)
  have ⟨_, hmonth, _, hday⟩ := hvalid
  have hmost : Civil.daysOfMonth t.fields.date.year t.fields.date.month ≤ 31 := by
    unfold Civil.daysOfMonth
    split
    · split <;> omega
    · split <;> omega
  have hlt := t.secondOfDay_lt
  have hleap := t.leapSeconds_cases
  have hsecs := t.secs_eq
  refine ⟨hvalid, by omega, by omega, ?_, ?_, ?_, ?_, rfl⟩
  · change t.secondOfDay / 3600 ≤ 23
    omega
  · change t.secondOfDay / 60 % 60 ≤ 59
    omega
  · change t.secondOfDay % 60 + t.leapSeconds ≤ 60
    omega
  · change t.nanos - t.leapSeconds * 1000000000 < 1000000000
    omega

theorem ofParts?_eq {t : Instant} {secs : Int} {nanos : Nat} (hsecs : secs = t.secs)
    (hnanos : nanos = t.nanos) : ofParts? secs nanos = some t := by
  subst hsecs hnanos
  exact dif_pos t.inRange

theorem year_fields (t : Instant) :
    -262143 ≤ t.fields.date.year ∧ t.fields.date.year ≤ 262142 := by
  obtain ⟨hfirst, hlast, -⟩ := t.inRange
  simp only [firstSecond, lastSecond] at hfirst hlast
  exact Civil.year_ofDays (by omega) (by omega)

theorem ofFields?_eq {f : Fields} (hf : f.InRange)
    (hyear : -262143 ≤ f.date.year ∧ f.date.year ≤ 262142) {t : Instant} (leap : Nat)
    (hleap : leap = if f.second = 60 then 1 else 0) (hdays : f.date.toDays = t.secs / 86400)
    (htime : (f.hour * 3600 + f.minute * 60 + f.second : Int) = t.secs % 86400 + leap)
    (hnanos : f.nanos + leap * 1000000000 = t.nanos) : ofFields? f = some t := by
  obtain ⟨hdate, -, -, hhour, hminute, hsecond, -, hoffset⟩ := hf
  unfold ofFields?
  rw [if_pos ⟨hdate, hyear.1, hyear.2, hhour, hminute, hsecond, by omega, by omega⟩, hdays,
    hoffset, ← hleap]
  exact ofParts?_eq (by omega) hnanos

theorem ofFields?_fields (t : Instant) : ofFields? t.fields = some t := by
  have hdays : t.fields.date.toDays = t.secs / 86400 := Civil.toDays_ofDays (t.secs / 86400)
  have hhour : t.fields.hour = t.secondOfDay / 3600 := rfl
  have hminute : t.fields.minute = t.secondOfDay / 60 % 60 := rfl
  have hsecond : t.fields.second = t.secondOfDay % 60 + t.leapSeconds := rfl
  have hnanos : t.fields.nanos = t.nanos - t.leapSeconds * 1000000000 := rfl
  have hleap := t.leapSeconds_cases
  have hsecs := t.secs_eq
  refine ofFields?_eq t.inRange_fields t.year_fields t.leapSeconds ?_ hdays ?_ ?_
  · split <;> omega
  · omega
  · omega

/-- The text of fields. -/
def Fields.text (mark : UtcMark) (f : Fields) : List Char :=
  yearText f.date.year ++ '-' :: lastDigits 2 f.date.month ++ '-' :: lastDigits 2 f.date.day ++
    'T' :: lastDigits 2 f.hour ++ ':' :: lastDigits 2 f.minute ++ ':' :: lastDigits 2 f.second ++
      fractionText f.nanos ++ mark.toText.toList

theorem toList_toText (mark : UtcMark) (t : Instant) :
    (t.toText mark).toList = t.fields.text mark := by
  rw [toText, String.toList_append, String.toList_ofList]
  rfl

/-! ### Annotations -/

theorem offset?_utc : offset? (after? ':') ('+' :: "00:00".toList) = some (0, []) := by
  decide

theorem parse?_of_text {raw : String} {f : Fields} (hraw : raw.toList = f.text .offset)
    (hf : f.InRange) (hyear : 0 ≤ f.date.year ∧ f.date.year ≤ 9999) : parse? raw = ofFields? f := by
  obtain ⟨⟨year, month, day⟩, hour, minute, second, nanos, offset⟩ := f
  obtain ⟨-, hmonth, hday, hhour, hminute, hsecond, hnanos, hoffset⟩ := hf
  simp only at hyear hmonth hday hhour hminute hsecond hnanos hoffset
  obtain ⟨n, rfl⟩ := Int.eq_ofNat_of_zero_le hyear.1
  subst hoffset
  have hfour (rest : List Char) : fixed? 4 (lastDigits 4 n ++ rest) = some (n, rest) :=
    fixed?_lastDigits (by decide) (by omega) rest
  have htwo {n : Nat} (hn : n < 100) (rest : List Char) :
      fixed? 2 (lastDigits 2 n ++ rest) = some (n, rest) := fixed?_lastDigits (by decide) hn rest
  have hyearText : yearText (n : Int) = lastDigits 4 n := by
    rw [yearText, if_pos hyear, Int.toNat_natCast]
  have hfraction := fraction?_fractionText (c := '+') (by decide) "00:00".toList (by decide) hnanos
  have hmark : UtcMark.offset.toText.toList = '+' :: "00:00".toList := rfl
  unfold parse?
  rw [hraw, Fields.text]
  simp only [hyearText, List.append_assoc, List.cons_append, hfour, htwo hmonth, htwo hday,
    htwo (Nat.lt_of_le_of_lt hhour (by decide)), htwo (Nat.lt_of_le_of_lt hminute (by decide)),
    htwo (Nat.lt_of_le_of_lt hsecond (by decide)), hmark, hfraction, offset?_utc,
    after?, afterSeparator?, Option.bind_eq_bind, Option.bind_some, true_or, if_true,
    List.isEmpty_nil]

theorem parse?_format (t : Instant) :
    parse? t.format =
      if 0 ≤ t.fields.date.year ∧ t.fields.date.year ≤ 9999 then some t else none := by
  have htext := t.toList_toText .offset
  split
  next hyear => rw [format, parse?_of_text htext t.inRange_fields hyear, ofFields?_fields]
  next hyear =>
    unfold parse?
    rw [format, htext, Fields.text]
    simp only [List.append_assoc]
    rw [fixed?_yearText hyear]
    rfl

/-! ### Documents -/

theorem trimStart_digits {cs : List Char} (hne : cs ≠ []) (hcs : ∀ c ∈ cs, c.isDigit = true)
    (rest : List Char) : Text.trimStart (cs ++ rest) = cs ++ rest := by
  cases cs with
  | nil => exact absurd rfl hne
  | cons c cs =>
    have hc := Text.isBlank_of_isDigit (hcs c List.mem_cons_self)
    exact Text.trimStart_of_not_blank hc _

theorem digits_ne_cons {cs rest tail : List Char} {c : Char} (hne : cs ≠ [])
    (hcs : ∀ c ∈ cs, c.isDigit = true) (hc : c.isDigit = false) : cs ++ rest ≠ c :: tail := by
  intro heq
  cases cs with
  | nil => exact absurd rfl hne
  | cons d cs =>
    have hdigit := hcs d List.mem_cons_self
    rw [(List.cons.inj heq).1, hc] at hdigit
    cases hdigit

theorem yearText_cases (year : Int) :
    ∃ (n : Nat) (cs : List Char), Numeral.digits? cs = some n ∧ (∀ c ∈ cs, c.isDigit = true) ∧
      (year = n ∧ yearText year = cs ∧ cs.length = 4 ∨
        year = n ∧ yearText year = '+' :: cs ∨ year = -(n : Int) ∧ yearText year = '-' :: cs) := by
  unfold yearText
  split
  next h =>
    exact ⟨year.toNat, _, digits?_lastDigits (by decide) (by omega), isDigit_lastDigits,
      .inl ⟨by omega, rfl, length_lastDigits _ _⟩⟩
  next h =>
    have hdigits : ∃ cs, (if year.natAbs < 10000 then lastDigits 4 year.natAbs
        else Nat.toDigits 10 year.natAbs) = cs ∧ Numeral.digits? cs = some year.natAbs ∧
        ∀ c ∈ cs, c.isDigit = true := by
      split
      next hlt => exact ⟨_, rfl, digits?_lastDigits (by decide) hlt, isDigit_lastDigits⟩
      next =>
        exact ⟨_, rfl, Numeral.digits?_toDigits _,
          fun c hc => Nat.isDigit_of_mem_toDigits (by decide) (by decide) hc⟩
    obtain ⟨cs, heq, hcs, hall⟩ := hdigits
    refine ⟨year.natAbs, cs, hcs, hall, .inr ?_⟩
    simp only [heq]
    split
    next hneg => exact .inr ⟨by omega, rfl⟩
    next hpos => exact .inl ⟨by omega, rfl⟩

theorem looseYear?_yearText (year : Int) (rest : List Char) :
    looseYear? (yearText year ++ '-' :: rest) = some (year, '-' :: rest) := by
  obtain ⟨n, cs, hcs, hall, ⟨hyear, htext, hlen⟩ | ⟨hyear, htext⟩ | ⟨hyear, htext⟩⟩ :=
    yearText_cases year
  · have hne : cs ≠ [] := fun hnil => by simp [hnil] at hlen
    have hnumber : number? 4 (cs ++ '-' :: rest) = some (n, '-' :: rest) :=
      number?_append hall (Nat.le_of_eq hlen) (.inl hlen) hcs
    unfold looseYear?
    rw [htext, trimStart_digits hne hall, hyear]
    split
    next heq => exact absurd heq (digits_ne_cons hne hall (by decide))
    next heq => exact absurd heq (digits_ne_cons hne hall (by decide))
    next => rw [hnumber, Option.map_some]
  · rw [looseYear?, htext, List.cons_append, Text.trimStart_of_not_blank (by decide), hyear]
    simp only [number?_append hall (List.length_append ▸ Nat.le_add_right _ _)
      (.inr ⟨'-', rest, rfl, rfl⟩) hcs, Option.map_some]
  · rw [looseYear?, htext, List.cons_append, Text.trimStart_of_not_blank (by decide), hyear]
    simp only [number?_append hall (List.length_append ▸ Nat.le_add_right _ _)
      (.inr ⟨'-', rest, rfl, rfl⟩) hcs, Option.map_some]

theorem looseField?_lastDigits {n : Nat} (hn : n < 100) (rest : List Char) :
    looseField? (lastDigits 2 n ++ rest) = some (n, rest) := by
  have hlen := length_lastDigits 2 n
  have hne : lastDigits 2 n ≠ [] := fun hnil => by simp [hnil] at hlen
  unfold looseField?
  rw [trimStart_digits hne isDigit_lastDigits]
  exact number?_append isDigit_lastDigits (Nat.le_of_eq hlen) (.inl hlen)
    (digits?_lastDigits (by decide) hn)

theorem looseAfter?_cons {c : Char} (hc : Text.isBlank c = false) (rest : List Char) :
    looseAfter? c (c :: rest) = some rest := by
  rw [looseAfter?, Text.trimStart_of_not_blank hc, after?, if_pos rfl]

theorem looseOffset?_utc : looseOffset? ['Z'] = some (0, []) := by
  decide

theorem parseLoose?_toText (t : Instant) : parseLoose? (t.toText .zulu) = some t := by
  have hread := ofFields?_fields t
  obtain ⟨-, hmonth, hday, hhour, hminute, hsecond, hnanos, -⟩ := t.inRange_fields
  have hoffset : t.fields.offset = 0 := rfl
  have hfraction := fraction?_fractionText (c := 'Z') (by decide) [] (by decide) hnanos
  have hmark : UtcMark.zulu.toText.toList = ['Z'] := rfl
  have hdash (rest : List Char) : looseAfter? '-' ('-' :: rest) = some rest :=
    looseAfter?_cons (by decide) rest
  have hcolon (rest : List Char) : looseAfter? ':' (':' :: rest) = some rest :=
    looseAfter?_cons (by decide) rest
  have htwo {n : Nat} (hn : n < 100) (rest : List Char) :
      looseField? (lastDigits 2 n ++ rest) = some (n, rest) := looseField?_lastDigits hn rest
  unfold parseLoose?
  rw [toList_toText, Fields.text]
  generalize t.fields = f at *
  obtain ⟨⟨year, month, day⟩, hour, minute, second, nanos, offset⟩ := f
  simp only at hmonth hday hhour hminute hsecond hnanos hoffset hfraction
  subst hoffset
  simp only [List.append_assoc, List.cons_append, looseYear?_yearText, hdash, hcolon, htwo hmonth,
    htwo hday, htwo (Nat.lt_of_le_of_lt hhour (by decide)),
    htwo (Nat.lt_of_le_of_lt hminute (by decide)), htwo (Nat.lt_of_le_of_lt hsecond (by decide)),
    hmark, hfraction, looseOffset?_utc, afterSeparator?, Option.bind_eq_bind, Option.bind_some,
    true_or, if_true, Text.trimStart, List.dropWhile_nil, List.isEmpty_nil]
  exact hread

end Workflow.Instant
