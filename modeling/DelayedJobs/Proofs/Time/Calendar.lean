import DelayedJobs.Time.Calendar
import Mathlib.Tactic.Ring

/-!
Days as dates and back. A day is taken apart into a cycle of 400 years, a year of the cycle and a
day of that year, both counted from March, and put together again.
-/

namespace DelayedJobs.Date

/-- Days of a cycle before its year `y`. -/
def yearStart (y : Nat) : Nat := 365 * y + y / 4 - y / 100

def yearInCycle (n : Nat) : Nat := (n - n / 1460 + n / 36524 - n / 146096) / 365

def monthInYear (n : Nat) : Nat := (5 * n + 2) / 153

def calendarMonth (month : Nat) : Nat := if month < 10 then month + 3 else month - 9

def ofParts (cycle : Int) (y inYear : Nat) : Date :=
  let month := monthInYear inYear
  ⟨cycle * 400 + y + (if calendarMonth month ≤ 2 then 1 else 0), calendarMonth month,
    inYear - daysToMonth month + 1⟩

theorem ofDays_eq (days : Int) :
    ofDays days = ofParts ((days + 719468) / 146097)
      (yearInCycle ((days + 719468) % 146097).toNat)
      (((days + 719468) % 146097).toNat - yearStart
        (yearInCycle ((days + 719468) % 146097).toNat)) :=
  rfl

section Years
variable {n y : Nat}

/-- Days of a year from March on: a day more if the next February has one. -/
def yearLength (y : Nat) : Nat := if isLeap (y + 1) then 366 else 365

theorem isLeap_iff {year : Int} :
    isLeap year = true ↔ year % 4 = 0 ∧ (year % 100 ≠ 0 ∨ year % 400 = 0) := by
  simp [isLeap]

theorem isLeap_cycle (cycle year : Int) : isLeap (cycle * 400 + year) = isLeap year := by
  rw [Bool.eq_iff_iff, isLeap_iff, isLeap_iff]
  omega

theorem yearInCycle_bounds (inside : n < 146097) :
    yearInCycle n < 400 ∧ yearStart (yearInCycle n) ≤ n ∧
      n < yearStart (yearInCycle n) + yearLength (yearInCycle n) := by
  obtain rfl | before := Nat.lt_succ_iff_lt_or_eq.mp inside |>.symm
  · decide
  obtain ⟨k, century⟩ : ∃ k, n / 36524 = k := ⟨_, rfl⟩
  obtain ⟨q, leaps⟩ : ∃ q, n / 1460 = q := ⟨_, rfl⟩
  have year : yearInCycle n = (n - q + k) / 365 := by
    rw [yearInCycle, century, leaps, Nat.div_eq_of_lt before, Nat.sub_zero]
  generalize yearInCycle n = y at *
  have inCentury : 100 * k ≤ y ∧ y < 100 * k + 100 := by omega
  have hundreds : y / 100 = k := by omega
  have days : 365 * y + y / 4 - k ≤ n ∧ n < 365 * y + y / 4 - k + 366 := by omega
  -- The day 365 comes only in a year that ends with a leap February.
  have last : n = 365 * y + y / 4 - k + 365 → y % 4 = 3 ∧ (y = 399 ∨ y ≠ 100 * k + 99) := by omega
  rw [yearStart, hundreds, yearLength]
  refine ⟨by omega, days.1, ?_⟩
  split_ifs with leap
  · exact days.2
  · refine lt_of_le_of_ne (Nat.le_of_lt_succ days.2) fun same => leap (isLeap_iff.mpr ?_)
    obtain ⟨fourth, exception⟩ := last same
    omega

end Years

section Months
variable {n y : Nat} {cycle : Int}

theorem daysInMonth_of_ne_two {month : Nat} (year other : Int) (usual : month ≠ 2) :
    daysInMonth year month = daysInMonth other month := by
  unfold daysInMonth
  split <;> first | rfl | contradiction

theorem monthInYear_bounds (inside : n < 366) : monthInYear n < 12 ∧
    daysToMonth (monthInYear n) ≤ n ∧ (365 ≤ n → monthInYear n = 11) := by
  rw [monthInYear, daysToMonth]
  omega

theorem calendarMonth_bounds {month : Nat} (inside : month < 12) :
    1 ≤ calendarMonth month ∧ calendarMonth month ≤ 12 ∧ (calendarMonth month + 9) % 12 = month ∧
      (calendarMonth month = 2 ↔ month = 11) := by
  rw [calendarMonth]
  split_ifs <;> omega

theorem toDays_ofParts (inCycle : y < 400) (inYear : n < 366) :
    (ofParts cycle y n).toDays = cycle * 146097 + (yearStart y + n : Nat) - 719468 := by
  obtain ⟨inside, starts, -⟩ := monthInYear_bounds inYear
  obtain ⟨-, -, back, -⟩ := calendarMonth_bounds inside
  have whole : (cycle * 400 + y) / 400 = cycle := by omega
  have rest : ((cycle * 400 + y) % 400).toNat = y := by omega
  simp only [toDays, ofParts, back]
  generalize daysToMonth (monthInYear n) = start at *
  have day : start + (n - start + 1) - 1 = n := by omega
  rw [yearStart, day]
  split_ifs with early
  · rw [add_sub_cancel_right, whole, rest]
    omega
  · rw [add_zero, whole, rest]
    omega

theorem valid_ofParts (inYear : n < yearLength y) : (ofParts cycle y n).Valid := by
  have bound : n < 366 := by
    rw [yearLength] at inYear
    split_ifs at inYear <;> omega
  obtain ⟨inside, starts, last⟩ := monthInYear_bounds bound
  obtain ⟨least, most, -, february⟩ := calendarMonth_bounds inside
  refine ⟨least, most, Nat.le_add_left _ _, ?_⟩
  by_cases end_ : monthInYear n = 11
  · show n - daysToMonth (monthInYear n) + 1 ≤ daysInMonth _ (calendarMonth (monthInYear n))
    have year : (ofParts cycle y n).year = cycle * 400 + (y + 1) := by
      simp only [ofParts, end_]
      exact add_assoc ..
    rw [february.mpr end_, end_, year]
    show n - 337 + 1 ≤ if isLeap (cycle * 400 + (y + 1)) = true then 29 else 28
    rw [isLeap_cycle]
    rw [yearLength] at inYear
    split_ifs at inYear ⊢ <;> omega
  · have usual : ∀ n < 366, monthInYear n ≠ 11 → n - daysToMonth (monthInYear n) + 1 ≤
        daysInMonth 1 (calendarMonth (monthInYear n)) := by decide +kernel
    have two : calendarMonth (monthInYear n) ≠ 2 := fun same => end_ (february.mp same)
    exact (usual n bound end_).trans_eq (daysInMonth_of_ne_two _ _ two)

end Months

section Days

theorem exists_parts (days : Int) : ∃ (cycle : Int) (y n : Nat), ofDays days = ofParts cycle y n ∧
    days + 719468 = cycle * 146097 + (yearStart y + n : Nat) ∧ y < 400 ∧ n < yearLength y := by
  obtain ⟨r, rest⟩ : ∃ r, ((days + 719468) % 146097).toNat = r := ⟨_, rfl⟩
  obtain ⟨inCycle, starts, ends⟩ := yearInCycle_bounds (n := r) (by omega)
  refine ⟨_, _, _, ofDays_eq days, ?_, ?_, ?_⟩ <;> rw [rest] <;> omega

theorem yearLength_le (y : Nat) : yearLength y ≤ 366 := by
  rw [yearLength]
  split_ifs <;> omega

theorem toDays_ofDays (days : Int) : (ofDays days).toDays = days := by
  obtain ⟨cycle, y, n, parts, sum, inCycle, inYear⟩ := exists_parts days
  rw [parts, toDays_ofParts inCycle (lt_of_lt_of_le inYear (yearLength_le y))]
  omega

theorem valid_ofDays (days : Int) : (ofDays days).Valid := by
  obtain ⟨cycle, y, n, parts, -, -, inYear⟩ := exists_parts days
  rw [parts]
  exact valid_ofParts inYear

theorem year_ofDays (days : Int) (first : -96465292 ≤ days) (last : days ≤ 95026236) :
    -262143 ≤ (ofDays days).year ∧ (ofDays days).year ≤ 262142 := by
  obtain ⟨cycle, y, n, parts, sum, inCycle, inYear⟩ := exists_parts days
  have bound := lt_of_lt_of_le inYear (yearLength_le y)
  have year : (ofDays days).year =
      cycle * 400 + y + (if calendarMonth (monthInYear n) ≤ 2 then 1 else 0) := by rw [parts]; rfl
  rw [yearStart] at sum
  have low : -262144 ≤ cycle * 400 + y := by omega
  have high : cycle * 400 + y ≤ 262142 := by omega
  have start : cycle * 400 + y = -262144 → 306 ≤ n := by omega
  have stop : cycle * 400 + y = 262142 → n < 306 := by omega
  rw [year, calendarMonth, monthInYear]
  split_ifs <;> omega

end Days
end DelayedJobs.Date
