import DelayedJobs.Decimal.Binary

/-!
The shortest decimal that reads back as a given double. For one digit, two digits and so on, the
two neighbours of the number on that decimal grid are compared with the reals that round to it;
the first grid with a hit wins, and of two hits the nearer.
-/

namespace DelayedJobs

structure Decimal where
  digits : Nat
  exponent : Int
deriving DecidableEq

namespace Decimal

def places (n : Nat) : Nat := if n = 0 then 0 else (Nat.toDigits 10 n).length

/-- The number `p` with `10 ^ (p - 1) ≤ num / den < 10 ^ p`. -/
def magnitude (num den : Nat) : Int :=
  let p : Int := places num - places den
  if num * Nat.pow 10 (-p).toNat < den * Nat.pow 10 p.toNat then p else p + 1

/-- Whether a decimal lies among the reals that round to `mantissa * 2 ^ exponent`. The ends of
that interval belong to it when the mantissa is even, and below the least mantissa of a binade the
numbers are twice as dense. -/
def roundsTo (mantissa : Nat) (exponent : Int) (d : Decimal) : Bool :=
  let below := if mantissa = Binary.leastNormal ∧ -1074 < exponent then 1 else 2
  let scale := Nat.pow 2 exponent.toNat * Nat.pow 10 (-d.exponent).toNat
  let low := (4 * mantissa - below) * scale
  let high := (4 * mantissa + 2) * scale
  let middle := 4 * d.digits * Nat.pow 10 d.exponent.toNat * Nat.pow 2 (-exponent).toNat
  if mantissa % 2 = 0 then low ≤ middle && middle ≤ high else low < middle && middle < high

/-- The decimal with `n` digits that reads back as the number, if there is one. -/
def onGrid? (mantissa : Nat) (exponent : Int) (n : Nat) : Option Decimal :=
  let (num, den) := Binary.quotient mantissa exponent
  let k := magnitude num den - n
  let num := num * Nat.pow 10 (-k).toNat
  let den := den * Nat.pow 10 k.toNat
  let low : Decimal := ⟨num / den, k⟩
  let high : Decimal := ⟨num / den + 1, k⟩
  match roundsTo mantissa exponent low, roundsTo mantissa exponent high with
  | true, true => some ⟨roundHalfEven num den, k⟩
  | true, false => some low
  | false, true => some high
  | false, false => none

def strip : Nat → Decimal → Decimal
  | 0, d => d
  | n + 1, d =>
    if d.digits ≠ 0 ∧ d.digits % 10 = 0 then strip n ⟨d.digits / 10, d.exponent + 1⟩ else d

/-- The shortest decimal that reads back as `mantissa * 2 ^ exponent`. Seventeen digits always
suffice for a double. -/
def shortest (mantissa : Nat) (exponent : Int) : Decimal :=
  let found := (List.range 17).findSome? fun n => onGrid? mantissa exponent (n + 1)
  strip 17 (found.getD ⟨mantissa, 0⟩)

end Decimal
end DelayedJobs
