/-!
Dates of the Gregorian calendar, extended to all years, as days since 1970. A year is counted from
March, so that the day of a leap year comes last, and 400 years are always 146097 days.
-/

namespace DelayedJobs

structure Date where
  year : Int
  month : Nat
  day : Nat
deriving DecidableEq

namespace Date

def isLeap (year : Int) : Bool := year % 4 = 0 && (year % 100 ≠ 0 || year % 400 = 0)

def daysInMonth (year : Int) (month : Nat) : Nat :=
  match month with
  | 2 => if isLeap year then 29 else 28
  | 4 | 6 | 9 | 11 => 30
  | _ => 31

def Valid (d : Date) : Prop :=
  1 ≤ d.month ∧ d.month ≤ 12 ∧ 1 ≤ d.day ∧ d.day ≤ daysInMonth d.year d.month

instance (d : Date) : Decidable d.Valid := inferInstanceAs (Decidable (_ ∧ _ ∧ _ ∧ _))

/-- Days from the first of March of a year to the first of a month, March being month zero. -/
def daysToMonth (m : Nat) : Nat := (153 * m + 2) / 5

def toDays (d : Date) : Int :=
  let year := if d.month ≤ 2 then d.year - 1 else d.year
  let month := (d.month + 9) % 12
  let cycle := year / 400
  let inCycle := (year % 400).toNat
  let inYear := daysToMonth month + d.day - 1
  cycle * 146097 + (inCycle * 365 + inCycle / 4 - inCycle / 100 + inYear : Nat) - 719468

def ofDays (days : Int) : Date :=
  let days := days + 719468
  let cycle := days / 146097
  let inCycle := (days % 146097).toNat
  let year := (inCycle - inCycle / 1460 + inCycle / 36524 - inCycle / 146096) / 365
  let inYear := inCycle - (365 * year + year / 4 - year / 100)
  let month := (5 * inYear + 2) / 153
  let day := inYear - daysToMonth month + 1
  let m := if month < 10 then month + 3 else month - 9
  ⟨cycle * 400 + year + (if m ≤ 2 then 1 else 0), m, day⟩

end Date
end DelayedJobs
