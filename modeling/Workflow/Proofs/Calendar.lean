import Mathlib.Tactic.Common
import Workflow.Instant.Civil

/-!
# The calendar

The date of a day number is a date of the calendar, and has that day number. A day is looked up in
steps: its era of 400 years, the year of the era, and the month of the year, each year starting in
March.
-/

set_option autoImplicit false

namespace Workflow.Instant.Civil

/-- The days of an era before one of its years. -/
def daysBefore (year : Int) : Int := 365 * year + year / 4 - year / 100

/-- The year of a day of an era. -/
def yearOfDay (day : Int) : Int := (day - day / 1460 + day / 36524 - day / 146096) / 365

/-- A day of an era is a day of one of its years, which has a 366th day only before a leap year. -/
structure InYear (day year dayOfYear : Int) : Prop where
  day_eq : day = daysBefore year + dayOfYear
  year_range : 0 ≤ year ∧ year ≤ 399
  day_range : 0 ≤ dayOfYear ∧ dayOfYear ≤ 365
  leap : dayOfYear = 365 → (year + 1) % 4 = 0 ∧ ((year + 1) % 100 ≠ 0 ∨ year = 399)

/-- Centuries have 36524 days, four years 1461; the last day of an era belongs to its last year. -/
theorem inYear_yearOfDay (day : Int) (h₀ : 0 ≤ day) (h₁ : day ≤ 146096) :
    InYear day (yearOfDay day) (day - daysBefore (yearOfDay day)) := by
  by_cases hlast : day = 146096
  · subst hlast
    exact ⟨by decide, by decide, by decide, by decide⟩
  · -- a century of the era, a cycle of four years in it, a year of the cycle, a day of that year
    obtain ⟨century, hcentury⟩ : ∃ c, c = day / 36524 := ⟨_, rfl⟩
    obtain ⟨rest, hrest⟩ : ∃ r, r = day % 36524 := ⟨_, rfl⟩
    obtain ⟨cycle, hcycle⟩ : ∃ q, q = rest / 1461 := ⟨_, rfl⟩
    obtain ⟨left, hleft⟩ : ∃ u, u = rest % 1461 := ⟨_, rfl⟩
    obtain ⟨year, hyear⟩ : ∃ v, v = if left = 1460 then 3 else left / 365 := ⟨_, rfl⟩
    have hday : day = 36524 * century + (1461 * cycle + left) := by omega
    have hera : day / 146096 = 0 := by omega
    have hskipped : day / 1460 = 25 * century + cycle + (24 * century + cycle + left) / 1460 := by
      omega
    have hfound : yearOfDay day = 100 * century + 4 * cycle + year := by
      unfold yearOfDay
      rw [hera, hskipped, ← hcentury]
      split at hyear <;> omega
    have hbefore : daysBefore (yearOfDay day) = 36524 * century + 1461 * cycle + 365 * year := by
      have hfour : yearOfDay day / 4 = 25 * century + cycle := by
        split at hyear <;> omega
      have hhundred : yearOfDay day / 100 = century := by
        split at hyear <;> omega
      unfold daysBefore
      omega
    rw [hbefore]
    refine ⟨by omega, ?_, ?_, fun hfull => ?_⟩
    · split at hyear <;> omega
    · split at hyear <;> omega
    · split at hyear <;> omega

/-- The month of a day of a year, counted from March, and the day of the month. -/
structure InMonth (dayOfYear month day : Int) : Prop where
  day_eq : dayOfYear = (153 * month + 2) / 5 + day - 1
  month_range : 0 ≤ month ∧ month ≤ 11
  day_range : 1 ≤ day ∧ day ≤ 31
  february : month = 11 → day ≤ 29 ∧ (day = 29 → dayOfYear = 365)
  short : month = 1 ∨ month = 3 ∨ month = 6 ∨ month = 8 → day ≤ 30

theorem inMonth {dayOfYear : Int} (h₀ : 0 ≤ dayOfYear) (h₁ : dayOfYear ≤ 365) :
    InMonth dayOfYear ((5 * dayOfYear + 2) / 153)
      (dayOfYear - (153 * ((5 * dayOfYear + 2) / 153) + 2) / 5 + 1) := by
  obtain ⟨month, hmonth⟩ : ∃ m, m = (5 * dayOfYear + 2) / 153 := ⟨_, rfl⟩
  have hrange : 0 ≤ month ∧ month ≤ 11 := by omega
  have hcases : month = 0 ∨ month = 1 ∨ month = 2 ∨ month = 3 ∨ month = 4 ∨ month = 5 ∨ month = 6 ∨
      month = 7 ∨ month = 8 ∨ month = 9 ∨ month = 10 ∨ month = 11 := by omega
  rw [← hmonth]
  refine ⟨by omega, hrange, ?_, fun hfeb => ?_, fun hshort => ?_⟩
  · rcases hcases with h | h | h | h | h | h | h | h | h | h | h | h <;> subst h <;> omega
  · subst hfeb
    omega
  · rcases hshort with h | h | h | h <;> subst h <;> omega

theorem exists_parts (days : Int) :
    ∃ era dayOfEra year dayOfYear month day : Int, days + 719468 = era * 146097 + dayOfEra ∧
      InYear dayOfEra year dayOfYear ∧ InMonth dayOfYear month day ∧
        ofDays days = ⟨if month < 10 then year + era * 400 else year + era * 400 + 1,
          (if month < 10 then month + 3 else month - 9).toNat, day.toNat⟩ := by
  have hyear := inYear_yearOfDay ((days + 719468) % 146097) (by omega) (by omega)
  have hmonth := inMonth hyear.day_range.1 hyear.day_range.2
  refine ⟨(days + 719468) / 146097, (days + 719468) % 146097, _, _, _, _, by omega, hyear, hmonth,
    ?_⟩
  have hrange := hmonth.month_range
  unfold ofDays
  unfold yearOfDay daysBefore at hrange ⊢
  simp only
  congr 1
  split <;> split <;> omega

theorem toDays_ofDays (days : Int) : (ofDays days).toDays = days := by
  obtain ⟨era, dayOfEra, year, dayOfYear, month, day, hdays, hyear, hmonth, hdate⟩ :=
    exists_parts days
  obtain ⟨hday, ⟨hlow, hhigh⟩, -, -⟩ := hyear
  obtain ⟨hdayOfYear, hmonths, hdayOfMonth, -, -⟩ := hmonth
  unfold daysBefore at hday
  rw [hdate]
  unfold toDays
  simp only
  by_cases hlt : month < 10
  · rw [if_pos hlt, if_pos hlt, if_neg (by omega), if_neg (by omega)]
    have hera : (year + era * 400) / 400 = era := by omega
    have hrest : (year + era * 400) % 400 = year := by omega
    have hcount : ((month + 3).toNat : Int) - 3 = month := by omega
    rw [hera, hrest, hcount]
    omega
  · rw [if_neg hlt, if_neg hlt, if_pos (by omega), if_pos (by omega)]
    have hera : (year + era * 400 + 1 - 1) / 400 = era := by omega
    have hrest : (year + era * 400 + 1 - 1) % 400 = year := by omega
    have hcount : ((month - 9).toNat : Int) + 9 = month := by omega
    rw [hera, hrest, hcount]
    omega

theorem isLeapYear_iff (year : Int) :
    isLeapYear year = true ↔ year % 4 = 0 ∧ (year % 100 ≠ 0 ∨ year % 400 = 0) := by
  simp [isLeapYear]

theorem valid_ofDays (days : Int) : (ofDays days).Valid := by
  obtain ⟨era, dayOfEra, year, dayOfYear, month, day, -, hyear, hmonth, hdate⟩ := exists_parts days
  obtain ⟨-, hyears, -, hleap⟩ := hyear
  obtain ⟨-, hmonths, hdays, hfeb, hshort⟩ := hmonth
  rw [hdate]
  unfold Valid
  simp only
  refine ⟨?_, ?_, by omega, ?_⟩
  · split <;> omega
  · split <;> omega
  · unfold daysOfMonth
    by_cases hlt : month < 10
    · rw [if_pos hlt, if_pos hlt, if_neg (by omega)]
      split
      next h => have hle := hshort (by omega); omega
      next => omega
    · rw [if_neg hlt, if_neg hlt]
      by_cases heq : month = 11
      · obtain ⟨hle, hfull⟩ := hfeb heq
        rw [if_pos (by omega)]
        by_cases hday : day = 29
        · have hyear := hleap (hfull hday)
          rw [if_pos ((isLeapYear_iff _).2 (by omega))]
          omega
        · split <;> omega
      · rw [if_neg (by omega), if_neg (by omega)]
        omega

theorem year_ofDays {days : Int} (h₀ : -96465292 ≤ days) (h₁ : days ≤ 95026236) :
    -262143 ≤ (ofDays days).year ∧ (ofDays days).year ≤ 262142 := by
  obtain ⟨era, dayOfEra, year, dayOfYear, month, day, hdays, hyear, hmonth, hdate⟩ :=
    exists_parts days
  obtain ⟨hday, hyears, hdayOfYear, -⟩ := hyear
  obtain ⟨hparts, hmonths, hdayOfMonth, -, -⟩ := hmonth
  unfold daysBefore at hday
  have hera : -656 ≤ era ∧ era ≤ 655 := by omega
  have hfirst : era = -656 → 256 ≤ year ∧ (year = 256 → 10 ≤ month) := by omega
  have hlast : era = 655 → year ≤ 142 ∧ (year = 142 → month < 10) := by omega
  rw [hdate]
  simp only
  split
  · omega
  · omega

end Workflow.Instant.Civil
