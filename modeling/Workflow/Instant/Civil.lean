/-!
# Civil dates

Dates of the Gregorian calendar, extended without end to both sides, and their day numbers.
-/

set_option autoImplicit false

namespace Workflow.Instant

structure Civil where
  /-- The year; year 0 precedes year 1. -/
  year : Int
  month : Nat
  day : Nat
  deriving DecidableEq, Repr

namespace Civil

def isLeapYear (year : Int) : Bool := year % 4 == 0 && (year % 100 != 0 || year % 400 == 0)

def daysOfMonth (year : Int) (month : Nat) : Nat :=
  if month = 2 then (if isLeapYear year then 29 else 28)
  else if month = 4 ∨ month = 6 ∨ month = 9 ∨ month = 11 then 30
  else 31

def Valid (d : Civil) : Prop :=
  1 ≤ d.month ∧ d.month ≤ 12 ∧ 1 ≤ d.day ∧ d.day ≤ daysOfMonth d.year d.month

instance (d : Civil) : Decidable d.Valid := inferInstanceAs (Decidable (_ ∧ _ ∧ _ ∧ _))

/-- Days since 1 January 1970. Years are counted from March, so that a leap day ends its year. -/
def toDays (d : Civil) : Int :=
  let year : Int := if d.month ≤ 2 then d.year - 1 else d.year
  let era : Int := year / 400
  let yearOfEra : Int := year % 400
  let month : Int := if d.month ≤ 2 then d.month + 9 else d.month - 3
  let dayOfYear : Int := (153 * month + 2) / 5 + d.day - 1
  era * 146097 + (yearOfEra * 365 + yearOfEra / 4 - yearOfEra / 100 + dayOfYear) - 719468

/-- The date that lies the given number of days after 1 January 1970. -/
def ofDays (days : Int) : Civil :=
  let shifted : Int := days + 719468
  let era : Int := shifted / 146097
  let dayOfEra : Int := shifted % 146097
  let yearOfEra : Int :=
    (dayOfEra - dayOfEra / 1460 + dayOfEra / 36524 - dayOfEra / 146096) / 365
  let dayOfYear : Int := dayOfEra - (365 * yearOfEra + yearOfEra / 4 - yearOfEra / 100)
  let march : Int := (5 * dayOfYear + 2) / 153
  let day : Int := dayOfYear - (153 * march + 2) / 5 + 1
  let month : Int := if march < 10 then march + 3 else march - 9
  let year : Int := yearOfEra + era * 400
  ⟨if month ≤ 2 then year + 1 else year, month.toNat, day.toNat⟩

end Civil

end Workflow.Instant
