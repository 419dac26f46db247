import DelayedJobs.Decimal.Binary
import DelayedJobs.Time.DurationText

/-!
Numbers as they are written on a command line.
-/

namespace DelayedJobs.CommandLine

open Text

def digits? (s : List Char) : Option Nat :=
  if s ≠ [] ∧ s.all Char.isDigit then some (digitsValue s) else none

def integer? (s : List Char) : Option Int :=
  match s with
  | '-' :: r => (digits? r).map fun n => -(n : Int)
  | '+' :: r => (digits? r).map fun n => n
  | s => (digits? s).map fun n => n

/-- A number below `2 ^ 64`, without a minus sign. -/
def word64? (s : String) : Option UInt64 :=
  if s.toList.head? = some '-' then none
  else (integer? s.toList).bind fun n => if n < Word.count64 then some (.ofNat n.toNat) else none

/-- A number from zero to below `2 ^ 32`; zero may have a minus sign. -/
def word32? (s : String) : Option UInt32 :=
  (integer? s.toList).bind fun n => if 0 ≤ n ∧ n < Word.count32 then some (.ofNat n.toNat) else none

def exponent? (s : List Char) : Option Int :=
  match s with
  | [] => some 0
  | c :: r => if c = 'e' ∨ c = 'E' then integer? r else none

/-- Digits with a point among them, before or behind them, or with none, and an exponent. -/
def decimal? (s : List Char) : Option Float :=
  let whole := s.takeWhile Char.isDigit
  let rest := s.dropWhile Char.isDigit
  let (places, rest) := match rest with
    | '.' :: r => (r.takeWhile Char.isDigit, r.dropWhile Char.isDigit)
    | r => ([], r)
  if whole = [] ∧ places = [] then none
  else (exponent? rest).map fun e => Decimal.nearest (digitsValue (whole ++ places))
    (e - places.length)

/-- A number or a name of one that is none, in letters of either case. -/
def magnitude? (s : List Char) : Option Float :=
  let lower := String.ofList (s.map Char.toLower)
  if lower = "inf" ∨ lower = "infinity" then some (1 / 0)
  else if lower = "nan" then some (0 / 0)
  else decimal? s

def real? (s : String) : Option Float :=
  match s.toList with
  | '-' :: r => (magnitude? r).map fun x => -x
  | '+' :: r => magnitude? r
  | r => magnitude? r

end DelayedJobs.CommandLine
