import DelayedJobs.Text.Blank
import DelayedJobs.Time.Calendar
import DelayedJobs.Time.DurationText
import DelayedJobs.Time.Instant

/-!
Instants as text, `2024-01-31T12:00:00.5Z`. Reading allows white space between the parts, one digit
where two are usual, years with a sign, and offsets from universal time; writing gives none, three,
six or nine digits of a second's fraction. Any minute may end with a leap second, numbered 60, which
means the instant of the second that follows; a timestamp keeps which of the two was written.
-/

namespace DelayedJobs

/-- An instant as it is written. A leap second is kept with the instant a second before it, in the
last second of a minute. -/
structure Timestamp where
  base : Instant
  leap : Bool := false
  leap_ends_minute : leap = true → base.nanos / 1000000000 % 60 = 59 := by simp
deriving DecidableEq

namespace Timestamp

open Text

def ofInstant (t : Instant) : Timestamp := { base := t }

def instant (t : Timestamp) : Instant :=
  if t.leap then .nearest (t.base.nanos + 1000000000) else t.base

instance : Inhabited Timestamp := ⟨ofInstant default⟩

def pad (width n : Nat) : List Char :=
  let digits := Nat.toDigits 10 n
  List.replicate (width - digits.length) '0' ++ digits

/-- Four digits for the years 0 to 9999, and a sign before all others. -/
def yearText (y : Int) : List Char :=
  if 0 ≤ y ∧ y ≤ 9999 then pad 4 y.natAbs
  else if y < 0 then '-' :: pad 4 y.natAbs
  else '+' :: pad 4 y.natAbs

def fractionText (nanos : Nat) : List Char :=
  if nanos = 0 then []
  else if nanos % 1000000 = 0 then '.' :: pad 3 (nanos / 1000000)
  else if nanos % 1000 = 0 then '.' :: pad 6 (nanos / 1000)
  else '.' :: pad 9 nanos

def localText (t : Timestamp) : List Char :=
  let extra : Nat := if t.leap then 1 else 0
  let seconds := t.base.nanos / 1000000000
  let date := Date.ofDays (seconds / 86400)
  let time := (seconds % 86400).toNat
  yearText date.year ++ '-' :: pad 2 date.month ++ '-' :: pad 2 date.day ++ 'T' ::
    pad 2 (time / 3600) ++ ':' :: pad 2 (time / 60 % 60) ++ ':' :: pad 2 (time % 60 + extra) ++
    fractionText (t.base.nanos % 1000000000).toNat

def toText (t : Timestamp) : List Char := t.localText ++ ['Z']

def toOffsetText (t : Timestamp) : List Char := t.localText ++ ['+', '0', '0', ':', '0', '0']

/-! Reading. Each step takes its part off the front of the text. -/

def takeNumber (most : Nat) (s : List Char) : Option (Nat × List Char) :=
  let digits := (s.take most).takeWhile Char.isDigit
  if digits = [] then none else some (digitsValue digits, s.drop digits.length)

/-- A year of up to four digits, or of any length behind a sign. -/
def takeYear (s : List Char) : Option (Int × List Char) :=
  match s with
  | '-' :: r => (takeNumber r.length r).map fun (n, r) => (-n, r)
  | '+' :: r => (takeNumber r.length r).map fun (n, r) => (n, r)
  | s => (takeNumber 4 s).map fun (n, r) => (n, r)

def takeChar (c : Char) (s : List Char) : Option (List Char) :=
  match s with
  | d :: r => if d = c then some r else none
  | [] => none

def takePair (s : List Char) : Option (Nat × List Char) := takeNumber 2 (trimLeft s)

/-- Nanoseconds behind a point; digits beyond the ninth are dropped. -/
def takeFraction (s : List Char) : Option (Nat × List Char) :=
  match s with
  | '.' :: r =>
    let digits := (r.take 9).takeWhile Char.isDigit
    if digits = [] then none
    else some (digitsValue digits * Nat.pow 10 (9 - digits.length), r.dropWhile Char.isDigit)
  | s => some (0, s)

/-- Seconds of an offset behind its sign: two digits of hours, separators, two of minutes. -/
def takeOffset (s : List Char) : Option (Nat × List Char) :=
  match s with
  | a :: b :: r =>
    match r.dropWhile fun c => c = ':' || isBlank c with
    | c :: d :: r =>
      if a.isDigit ∧ b.isDigit ∧ '0' ≤ c ∧ c ≤ '5' ∧ d.isDigit then
        some (digitsValue [a, b] * 3600 + digitsValue [c, d] * 60, r)
      else none
    | _ => none
  | _ => none

def takeZone (s : List Char) : Option (Int × List Char) :=
  if (s.take 3).map Char.toUpper = ['U', 'T', 'C'] then some (0, s.drop 3)
  else
    match s with
    | [] => none
    | c :: r =>
      if c = 'Z' ∨ c = 'z' then some (0, r)
      else if c = '+' then (takeOffset r).map fun (n, r) => (n, r)
      else if c = '-' ∨ c = '−' then (takeOffset r).map fun (n, r) => (-n, r)
      else none

def firstYear : Int := -262143
def lastYear : Int := 262142

/-- The date at the front of a text, in a year that has instants of universal time. -/
def takeDate (s : List Char) : Option (Date × List Char) := do
  let (year, s) ← takeYear (trimLeft s)
  let s ← takeChar '-' (trimLeft s)
  let (month, s) ← takePair s
  let s ← takeChar '-' (trimLeft s)
  let (day, s) ← takePair s
  let date : Date := ⟨year, month, day⟩
  if date.Valid ∧ firstYear ≤ year ∧ year ≤ lastYear then return (date, s) else none

/-- Nanoseconds since midnight, and whether a leap second follows them. -/
def takeTime (s : List Char) : Option (Nat × Bool × List Char) := do
  let (hour, s) ← takePair s
  let s ← takeChar ':' (trimLeft s)
  let (minute, s) ← takePair s
  let s ← takeChar ':' (trimLeft s)
  let (second, s) ← takePair s
  let (nanos, s) ← takeFraction s
  if hour ≤ 23 ∧ minute ≤ 59 ∧ second ≤ 60 then
    return ((hour * 3600 + minute * 60 + min second 59) * 1000000000 + nanos, second == 60, s)
  else none

def mark (leap : Bool) (t : Instant) : Option Timestamp :=
  if h : leap = true → t.nanos / 1000000000 % 60 = 59 then some ⟨t, leap, h⟩ else none

def ofText? (s : List Char) : Option Timestamp := do
  let (date, s) ← takeDate s
  let s ← match s with
    | c :: r => if c = 'T' ∨ c = 't' ∨ c = ' ' then some r else none
    | [] => none
  let (time, leap, s) ← takeTime s
  let (offset, s) ← takeZone (trimLeft s)
  if allBlank s ∧ -86400 < offset ∧ offset < 86400 then
    (Instant.ofNanos? (date.toDays * 86400000000000 + time - offset * 1000000000)).bind
      (mark leap)
  else none

def parse? (s : String) : Option Timestamp := ofText? s.toList

end Timestamp
end DelayedJobs
