import Mathlib.Order.Monotone.Basic
import Mathlib.Tactic.IntervalCases
import SpotExchange.Instant.Basic

/-!
The date that a day falls on is a date of the calendar, and leads back to that day. Within
four hundred years, from a March on, the year of a day is told by a quotient; it never goes
back from one day to the next, so it is enough to know it on the first and the last day of
each year.
-/

namespace SpotExchange.Date

/-- The days of an era before a year of it, counted from March. -/
def daysBefore (year : Nat) : Nat := 365 * year + year / 4 - year / 100 + year / 400

/-- The year of an era that a day of it falls in. -/
def yearOfEra (day : Nat) : Nat := (day - day / 1460 + day / 36524 - day / 146096) / 365

theorem yearOfEra_le_succ (day : Nat) : yearOfEra day ≤ yearOfEra (day + 1) := by
  -- The last quotient grows only where the one before it does too, so that no day takes off
  -- more than the one it adds.
  have quarter : ∀ n : Nat, n / 146096 = n / 36524 / 4 := fun n => by
    rw [Nat.div_div_eq_div_mul]
  apply Nat.div_le_div_right
  rw [quarter day, quarter (day + 1)]
  omega

theorem yearOfEra_mono : Monotone yearOfEra := monotone_nat_of_le_succ yearOfEra_le_succ

/-- The first and the last day of each year of an era. -/
theorem yearOfEra_ends :
    ∀ year < 400, yearOfEra (daysBefore year) = year ∧
      yearOfEra (daysBefore (year + 1) - 1) = year := by
  decide +kernel

theorem exists_year {day count : Nat} (before : day < daysBefore count) :
    ∃ year < count, daysBefore year ≤ day ∧ day < daysBefore (year + 1) := by
  induction count with
  | zero => simp [daysBefore] at before
  | succ count ih =>
    by_cases earlier : day < daysBefore count
    · obtain ⟨year, less, bounds⟩ := ih earlier
      exact ⟨year, Nat.lt_succ_of_lt less, bounds⟩
    · exact ⟨count, Nat.lt_succ_self count, Nat.le_of_not_lt earlier, before⟩

theorem yearOfEra_bounds {day : Nat} (inEra : day < 146097) :
    yearOfEra day < 400 ∧ daysBefore (yearOfEra day) ≤ day ∧
      day < daysBefore (yearOfEra day + 1) := by
  have era : daysBefore 400 = 146097 := rfl
  obtain ⟨year, less, begun, notOver⟩ := exists_year (inEra.trans_eq era.symm)
  obtain ⟨first, last⟩ := yearOfEra_ends year less
  have lower := yearOfEra_mono begun
  have upper := yearOfEra_mono (Nat.le_sub_one_of_lt notOver)
  have same : yearOfEra day = year := by omega
  rw [same]
  exact ⟨less, begun, notOver⟩

theorem isLeap_iff (year : Int) :
    isLeap year = true ↔ year % 4 = 0 ∧ (year % 100 ≠ 0 ∨ year % 400 = 0) := by
  simp [isLeap]

theorem daysBefore_succ {year : Nat} (era : Int) (less : year < 400) :
    daysBefore (year + 1) = daysBefore year + 337 + monthLength (year + era * 400 + 1) 2 := by
  rw [monthLength, if_pos rfl]
  unfold daysBefore
  split
  case isTrue leap =>
    obtain ⟨four, notHundred | fourHundred⟩ := (isLeap_iff _).1 leap
    · have four : (year + 1) % 4 = 0 := by omega
      have notHundred : (year + 1) % 100 ≠ 0 := by omega
      omega
    · have fourHundred : (year + 1) % 400 = 0 := by omega
      omega
  case isFalse common =>
    have := (isLeap_iff _).not.1 common
    omega

def daysBeforeMonth (month : Nat) : Nat := (153 * month + 2) / 5

def monthOfYear (day : Nat) : Nat := (5 * day + 2) / 153

theorem monthOfYear_bounds {day : Nat} (inYear : day < 366) :
    monthOfYear day < 12 ∧ daysBeforeMonth (monthOfYear day) ≤ day ∧
      day < daysBeforeMonth (monthOfYear day + 1) := by
  unfold monthOfYear daysBeforeMonth
  omega

/-- A day of an era by its year there, its month and its place in that, counted from March
and from zero. -/
structure Place (year month day : Nat) : Prop where
  inYears : year < 400
  inMonths : month < 12
  inMonth : daysBeforeMonth month + day < daysBeforeMonth (month + 1)
  inYear : daysBefore year + daysBeforeMonth month + day < daysBefore (year + 1)

def inEra (era : Int) (year month day : Nat) : Date :=
  if month < 10 then ⟨year + era * 400, month + 3, day + 1⟩
  else ⟨year + era * 400 + 1, month - 9, day + 1⟩

theorem days_of_years (era : Int) {year : Nat} (inYears : year < 400) :
    365 * (year + era * 400) + (year + era * 400) / 4 - (year + era * 400) / 100 +
      (year + era * 400) / 400 = era * 146097 + daysBefore year := by
  have four : (year + era * 400) / 4 = (year : Int) / 4 + era * 100 := by omega
  have hundred : (year + era * 400) / 100 = (year : Int) / 100 + era * 4 := by omega
  have fourHundred : (year + era * 400) / 400 = era := by omega
  rw [four, hundred, fourHundred, daysBefore]
  omega

variable {year month day : Nat}

theorem Place.toDays (place : Place year month day) (era : Int) :
    (inEra era year month day).toDays =
      era * 146097 + daysBefore year + daysBeforeMonth month + day - 719468 := by
  have years := days_of_years era place.inYears
  have inMonths := place.inMonths
  unfold inEra daysBeforeMonth
  split
  case isTrue early =>
    have march : ¬month + 3 ≤ 2 := by omega
    have back : (month + 3 + 9) % 12 = month := by omega
    simp only [Date.toDays, if_neg march, back, years]
    omega
  case isFalse late =>
    have january : month - 9 ≤ 2 := by omega
    have back : (month - 9 + 9) % 12 = month := by omega
    simp only [Date.toDays, if_pos january, back, Int.add_sub_cancel, years]
    omega

theorem Place.valid (place : Place year month day) (era : Int) :
    (inEra era year month day).valid = true := by
  obtain ⟨inYears, inMonths, inMonth, inYear⟩ := place
  rw [daysBefore_succ era inYears] at inYear
  unfold daysBeforeMonth at inMonth inYear
  unfold inEra
  by_cases february : month = 11
  · subst february
    rw [if_neg (by decide : ¬11 < 10)]
    simp only [Date.valid, Bool.and_eq_true, decide_eq_true_eq, Nat.reduceSub]
    omega
  · interval_cases month <;> simp_all [Date.valid, monthLength] <;> omega

theorem place_of_day {dayOfEra : Nat} (inEra : dayOfEra < 146097) :
    ∃ dayOfYear day, dayOfEra = daysBefore (yearOfEra dayOfEra) + dayOfYear ∧
      dayOfYear = daysBeforeMonth (monthOfYear dayOfYear) + day ∧
      Place (yearOfEra dayOfEra) (monthOfYear dayOfYear) day := by
  obtain ⟨inYears, begun, notOver⟩ := yearOfEra_bounds inEra
  obtain ⟨dayOfYear, split⟩ := Nat.exists_eq_add_of_le begun
  have february : monthLength (yearOfEra dayOfEra + 0 * 400 + 1) 2 ≤ 29 := by
    rw [monthLength, if_pos rfl]
    split <;> omega
  have short := daysBefore_succ 0 inYears
  have inYear : dayOfYear < 366 := by omega
  obtain ⟨inMonths, monthBegun, monthNotOver⟩ := monthOfYear_bounds inYear
  obtain ⟨day, place⟩ := Nat.exists_eq_add_of_le monthBegun
  exact ⟨dayOfYear, day, split, place, inYears, inMonths, by omega, by omega⟩

/-- The date of a day is the one at its place. -/
theorem ofDays_place (days : Int) :
    ∃ (era : Int) (year month day : Nat), Place year month day ∧
      days + 719468 = era * 146097 + daysBefore year + daysBeforeMonth month + day ∧
      ofDays days = inEra era year month day := by
  obtain ⟨dayOfEra, is⟩ : ∃ n, n = ((days + 719468) % 146097).toNat := ⟨_, rfl⟩
  have inEra : dayOfEra < 146097 := by omega
  obtain ⟨dayOfYear, day, ofEra, ofYear, place⟩ := place_of_day inEra
  refine ⟨(days + 719468) / 146097, _, _, day, place, by omega, ?_⟩
  have plain : 365 * yearOfEra dayOfEra + yearOfEra dayOfEra / 4 - yearOfEra dayOfEra / 100 =
      daysBefore (yearOfEra dayOfEra) := by
    have := place.inYears
    unfold daysBefore
    omega
  have restOfYear : dayOfEra - daysBefore (yearOfEra dayOfEra) = dayOfYear := by omega
  have restOfMonth : dayOfYear - daysBeforeMonth (monthOfYear dayOfYear) = day := by omega
  simp only [yearOfEra, monthOfYear, daysBeforeMonth] at plain restOfYear restOfMonth
  simp only [ofDays, ← is, plain, restOfYear, restOfMonth]
  rfl

theorem toDays_ofDays (days : Int) : (ofDays days).toDays = days := by
  obtain ⟨era, year, month, day, place, shifted, date⟩ := ofDays_place days
  rw [date, place.toDays era]
  omega

theorem valid_ofDays (days : Int) : (ofDays days).valid = true := by
  obtain ⟨era, year, month, day, place, -, date⟩ := ofDays_place days
  rw [date, place.valid era]

theorem short_of_valid {date : Date} (valid : date.valid = true) :
    date.month < 100 ∧ date.day < 100 := by
  have month : monthLength date.year date.month ≤ 31 := by
    unfold monthLength
    split_ifs <;> omega
  simp only [Date.valid, Bool.and_eq_true, decide_eq_true_eq] at valid
  omega

end SpotExchange.Date
