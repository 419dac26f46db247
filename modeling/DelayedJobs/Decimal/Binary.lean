/-!
Numbers of machines. Words are counted by how many there are of a width, written out so that bounds
are plain numbers. Double precision numbers are taken apart into an integer mantissa and a power of
two, so that they can be rounded and written in exact arithmetic. Decimals are read as doubles in
the two ways that texts of this library ask for: scaled by powers of ten in double precision, or
rounded once from the exact value.
-/

namespace DelayedJobs.Word

abbrev count31 : Nat := 2147483648
abbrev count32 : Nat := 4294967296
abbrev count63 : Nat := 9223372036854775808
abbrev count64 : Nat := 18446744073709551616
abbrev count127 : Nat := 170141183460469231731687303715884105728
abbrev count128 : Nat := 340282366920938463463374607431768211456

example : count31 = Nat.pow 2 31 ∧ count32 = Nat.pow 2 32 := by decide
example : count63 = Nat.pow 2 63 ∧ count64 = Nat.pow 2 64 := by decide
example : count127 = Nat.pow 2 127 ∧ count128 = Nat.pow 2 128 := by decide

end DelayedJobs.Word

namespace DelayedJobs

inductive Binary where
  | nan
  | infinite (negative : Bool)
  /-- The number `mantissa * 2 ^ exponent`, or its negative. -/
  | finite (negative : Bool) (mantissa : Nat) (exponent : Int)
deriving DecidableEq

namespace Binary

abbrev leastNormal : Nat := 4503599627370496

def ofBits (bits : Nat) : Binary :=
  let negative := decide (Word.count63 ≤ bits)
  let exponent : Nat := bits / leastNormal % 2048
  let fraction : Nat := bits % leastNormal
  if exponent = 2047 then
    if fraction = 0 then infinite negative else nan
  else if exponent = 0 then finite negative fraction (-1074)
  else finite negative (leastNormal + fraction) (exponent - 1075)

def ofFloat (x : Float) : Binary := ofBits x.toBits.toNat

def quotient (mantissa : Nat) (exponent : Int) : Nat × Nat :=
  (mantissa * Nat.pow 2 exponent.toNat, Nat.pow 2 (-exponent).toNat)

end Binary

/-- The natural number nearest to `num / den`; a half goes to the even neighbour. -/
def roundHalfEven (num den : Nat) : Nat :=
  let low := num / den
  let twice := 2 * (num % den)
  if twice < den then low
  else if den < twice then low + 1
  else if low % 2 = 0 then low else low + 1

theorem roundHalfEven_mul_right (n : Nat) {d : Nat} (h : 0 < d) : roundHalfEven (n * d) d = n := by
  simp [roundHalfEven, h]

end DelayedJobs

namespace DelayedJobs.Decimal

def tenTo (n : Nat) : Float := Float.ofScientific 1 false n

/-- Divides by `10 ^ n`, at most `10 ^ 308` at a time. -/
def scaleDown (x : Float) (n : Nat) : Float :=
  if _h : 308 < n then
    if x == 0 then x else scaleDown (x / tenTo 308) (n - 308)
  else x / tenTo n
termination_by n
decreasing_by omega

def scaled? (digits : Nat) (exponent : Int) : Option Float :=
  let x := Float.ofNat digits
  if exponent < 0 then some (scaleDown x (-exponent).toNat)
  else if x == 0 then some x
  else if 308 < exponent then none
  else
    let y := x * tenTo exponent.toNat
    if y.isInf then none else some y

/-- The double nearest to `digits * 10 ^ exponent`, infinite beyond the range. -/
def nearest (digits : Nat) (exponent : Int) : Float :=
  let top : Int := (Nat.toDigits 10 digits).length + exponent
  if digits = 0 ∨ top < -400 then 0
  else if 400 < top then 1 / 0
  else if exponent < 0 then Float.ofScientific digits true (-exponent).toNat
  else Float.ofScientific digits false exponent.toNat

end DelayedJobs.Decimal
