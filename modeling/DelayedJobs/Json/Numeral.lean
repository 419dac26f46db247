import DelayedJobs.Decimal.Binary
import DelayedJobs.Json.Basic
import DelayedJobs.Time.DurationText

/-!
Numbers of JSON as they are written, and the values they are read as. The significand is gathered
in 64 bits: whole digits beyond that only raise the exponent, fraction digits beyond it are dropped.
-/

namespace DelayedJobs.Json

structure Numeral where
  negative : Bool := false
  whole : List Char
  fraction : List Char := []
  exponent : Option Int := none
deriving DecidableEq

namespace Numeral

structure Significand where
  value : Nat := 0
  exponent : Int := 0
  full : Bool := false

namespace Significand

def digit (c : Char) : Nat := c.toNat - 48

def addWhole (s : Significand) (c : Char) : Significand :=
  if s.full || decide (Word.count64 ≤ 10 * s.value + digit c) then
    { s with exponent := s.exponent + 1, full := true }
  else { s with value := 10 * s.value + digit c }

def addFraction (s : Significand) (c : Char) : Significand :=
  if s.full || decide (Word.count64 ≤ 10 * s.value + digit c) then { s with full := true }
  else { s with value := 10 * s.value + digit c, exponent := s.exponent - 1 }

end Significand

def whole64 (n : Numeral) : Significand := n.whole.foldl Significand.addWhole {}

/-- The significand of all digits. Fraction digits are tried again after a whole part that did
not fit. -/
def significand (n : Numeral) : Significand :=
  n.fraction.foldl Significand.addFraction { n.whole64 with full := false }

def negate (negative : Bool) (x : Float) : Float := if negative then -x else x

def value? (n : Numeral) : Option Number :=
  if n.fraction = [] ∧ n.exponent = none ∧ ¬n.whole64.full then
    let v := n.whole64.value
    if ¬n.negative then some (.int v)
    else if 0 < v ∧ v ≤ Word.count63 then some (.int (-v))
    else some (.real (-(Float.ofNat v)))
  else
    let s := n.significand
    (Decimal.scaled? s.value (s.exponent + n.exponent.getD 0)).map fun x =>
      .real (negate n.negative x)

end Numeral
end DelayedJobs.Json
