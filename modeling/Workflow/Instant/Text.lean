import Workflow.Instant
import Workflow.Instant.Civil
import Workflow.Text.Blank
import Workflow.Text.Numeral

/-!
# Written instants

Instants are written as `2024-01-01T00:00:00.500Z` or with `+00:00` in place of the `Z`: as few of
none, three, six or nine digits of a fraction as are exact, and second 60 inside a leap second.
Annotations are read by a strict grammar (`parse?`), documents by one that allows blanks, short
fields and long years (`parseLoose?`). Both take any offset below a day and turn it to UTC.
-/

set_option autoImplicit false

namespace Workflow.Instant

/-! ### Writing -/

/-- How an instant says that it is in UTC. -/
inductive UtcMark where
  /-- The letter `Z`. -/
  | zulu
  /-- The offset `+00:00`. -/
  | offset

def UtcMark.toText : UtcMark → String
  | .zulu => "Z"
  | .offset => "+00:00"

/-- The last `width` decimal digits of a number, with leading zeros. -/
def lastDigits : (width : Nat) → Nat → List Char
  | 0, _ => []
  | width + 1, n => lastDigits width (n / 10) ++ [Nat.digitChar (n % 10)]

/-- A year: four digits from 0 to 9999, else a sign and at least four digits. -/
def yearText (year : Int) : List Char :=
  let digits (n : Nat) : List Char :=
    if n < 10000 then lastDigits 4 n else Nat.toDigits 10 n
  if 0 ≤ year ∧ year ≤ 9999 then lastDigits 4 year.toNat
  else (if year < 0 then '-' else '+') :: digits year.natAbs

/-- A fraction of a second, with its point; nothing if it is zero. -/
def fractionText (nanos : Nat) : List Char :=
  if nanos = 0 then []
  else if nanos % 1000000 = 0 then '.' :: lastDigits 3 (nanos / 1000000)
  else if nanos % 1000 = 0 then '.' :: lastDigits 6 (nanos / 1000)
  else '.' :: lastDigits 9 nanos

def toText (mark : UtcMark) (t : Instant) : String :=
  let date := Civil.ofDays (t.secs / 86400)
  let second := (t.secs % 86400).toNat
  let leap := if t.isLeap then 1 else 0
  String.ofList (yearText date.year ++ '-' :: lastDigits 2 date.month ++ '-' ::
    lastDigits 2 date.day ++ 'T' :: lastDigits 2 (second / 3600) ++ ':' ::
    lastDigits 2 (second / 60 % 60) ++ ':' :: lastDigits 2 (second % 60 + leap) ++
    fractionText (t.nanos - leap * 1000000000)) ++
    mark.toText

/-- The text that annotations hold. -/
def format (t : Instant) : String := t.toText .offset

/-! ### Reading -/

/-- What a written instant says. -/
structure Fields where
  date : Civil
  hour : Nat
  minute : Nat
  second : Nat
  nanos : Nat
  offset : Int

/-- The instant that the fields name, if date, time and offset are possible. -/
def ofFields? (f : Fields) : Option Instant :=
  if f.date.Valid ∧ -262143 ≤ f.date.year ∧ f.date.year ≤ 262142 ∧ f.hour ≤ 23 ∧ f.minute ≤ 59 ∧
      f.second ≤ 60 ∧ -1440 < f.offset ∧ f.offset < 1440 then
    let leap : Nat := if f.second = 60 then 1 else 0
    let day : Int := f.date.toDays
    ofParts? (day * 86400 + (f.hour * 3600 + f.minute * 60 + f.second - leap) - f.offset * 60)
      (f.nanos + leap * 1000000000)
  else none

/-- Splits off the longest run of digits, at most `most` of them. -/
def takeDigits : (most : Nat) → List Char → List Char × List Char
  | most + 1, c :: rest =>
    if c.isDigit then
      let (run, rest) := takeDigits most rest
      (c :: run, rest)
    else ([], c :: rest)
  | _, cs => ([], cs)

/-- A number of at least one and at most `most` digits, and the text after it. -/
def number? (most : Nat) (cs : List Char) : Option (Nat × List Char) :=
  let (run, rest) := takeDigits most cs
  (Numeral.digits? run).map fun n => (n, rest)

/-- A number of exactly `width` digits, and the text after it. -/
def fixed? (width : Nat) (cs : List Char) : Option (Nat × List Char) :=
  let (run, rest) := takeDigits width cs
  if run.length = width then (Numeral.digits? run).map fun n => (n, rest) else none

def after? (c : Char) : List Char → Option (List Char)
  | c' :: rest => if c' = c then some rest else none
  | [] => none

/-- The text after the sign between date and time. -/
def afterSeparator? : List Char → Option (List Char)
  | c :: rest => if c = 'T' ∨ c = 't' ∨ c = ' ' then some rest else none
  | [] => none

/-- An optional fraction in nanoseconds, of which the tenth digit and later ones count
for nothing. -/
def fraction? : List Char → Option (Nat × List Char)
  | '.' :: cs => do
    let (run, rest) := takeDigits 9 cs
    let n ← Numeral.digits? run
    some (n * Nat.pow 10 (9 - run.length), rest.dropWhile Char.isDigit)
  | cs => some (0, cs)

/-- An offset from UTC in minutes: `Z`, or a sign, two digits of hours and two of minutes, with
`between` taking what stands between these. -/
def offset? (between : List Char → Option (List Char)) : List Char → Option (Int × List Char)
  | [] => none
  | c :: cs =>
    if c = 'Z' ∨ c = 'z' then some (0, cs)
    else if c = '+' ∨ c = '-' ∨ c = '\u2212' then do
      let (hours, cs) ← fixed? 2 cs
      let cs ← between cs
      let (minutes, cs) ← fixed? 2 cs
      if minutes ≤ 59 then
        let total : Int := hours * 60 + minutes
        some (if c = '+' then total else -total, cs)
      else none
    else none

/-- Reads an instant of the form `2024-01-01T00:00:00.5+00:00`: a year of four digits, all other
fields of two, a separator `T`, `t` or a space, and nothing around it. -/
def parse? (raw : String) : Option Instant := do
  let (year, cs) ← fixed? 4 raw.toList
  let (month, cs) ← fixed? 2 (← after? '-' cs)
  let (day, cs) ← fixed? 2 (← after? '-' cs)
  let (hour, cs) ← fixed? 2 (← afterSeparator? cs)
  let (minute, cs) ← fixed? 2 (← after? ':' cs)
  let (second, cs) ← fixed? 2 (← after? ':' cs)
  let (nanos, cs) ← fraction? cs
  let (offset, cs) ← offset? (after? ':') cs
  if cs.isEmpty then ofFields? ⟨⟨year, month, day⟩, hour, minute, second, nanos, offset⟩ else none

/-- A year: up to four digits, or a sign and any number of them. -/
def looseYear? (cs : List Char) : Option (Int × List Char) :=
  match Text.trimStart cs with
  | '-' :: cs => (number? cs.length cs).map fun (n, cs) => (-(n : Int), cs)
  | '+' :: cs => (number? cs.length cs).map fun (n, cs) => ((n : Int), cs)
  | cs => (number? 4 cs).map fun (n, cs) => ((n : Int), cs)

def looseField? (cs : List Char) : Option (Nat × List Char) := number? 2 (Text.trimStart cs)

def looseAfter? (c : Char) (cs : List Char) : Option (List Char) := after? c (Text.trimStart cs)

/-- An offset, which the letters `UTC` in any case stand for as well. -/
def looseOffset? (cs : List Char) : Option (Int × List Char) :=
  match Text.trimStart cs with
  | u :: t :: c :: rest =>
    if u.toUpper = 'U' ∧ t.toUpper = 'T' ∧ c.toUpper = 'C' then some (0, rest)
    else separated (u :: t :: c :: rest)
  | cs => separated cs
where
  /-- An offset with any number of colons and blanks between hours and minutes. -/
  separated (cs : List Char) : Option (Int × List Char) :=
    offset? (fun cs => some (cs.dropWhile fun c => c = ':' || Text.isBlank c)) cs

/-- Reads an instant as documents hold it: as `parse?` does, but with blanks around the fields,
short fields, signed years of any length and `UTC` for an offset. -/
def parseLoose? (raw : String) : Option Instant := do
  let (year, cs) ← looseYear? raw.toList
  let (month, cs) ← looseField? (← looseAfter? '-' cs)
  let (day, cs) ← looseField? (← looseAfter? '-' cs)
  let (hour, cs) ← looseField? (← afterSeparator? cs)
  let (minute, cs) ← looseField? (← looseAfter? ':' cs)
  let (second, cs) ← looseField? (← looseAfter? ':' cs)
  let (nanos, cs) ← fraction? cs
  let (offset, cs) ← looseOffset? cs
  if (Text.trimStart cs).isEmpty then
    ofFields? ⟨⟨year, month, day⟩, hour, minute, second, nanos, offset⟩
  else none

end Workflow.Instant
