import DelayedJobs.Decimal.Binary

/-!
Lengths of time in whole nanoseconds, below `2 ^ 64` seconds. Multiples and sums that do not fit
stop at the longest duration. A length can be turned into double precision seconds and back.
-/

namespace DelayedJobs

structure Duration where
  nanos : Nat
  nanos_le : nanos ≤ 18446744073709551615999999999
deriving DecidableEq

namespace Duration

abbrev maxNanos : Nat := 18446744073709551615999999999

@[ext] theorem ext {a b : Duration} (h : a.nanos = b.nanos) : a = b := by
  cases a; cases b; simp_all

instance : LE Duration := ⟨fun a b => a.nanos ≤ b.nanos⟩
instance : LT Duration := ⟨fun a b => a.nanos < b.nanos⟩
instance (a b : Duration) : Decidable (a ≤ b) := inferInstanceAs (Decidable (a.nanos ≤ b.nanos))
instance (a b : Duration) : Decidable (a < b) := inferInstanceAs (Decidable (a.nanos < b.nanos))
instance : Max Duration := ⟨fun a b => if a ≤ b then b else a⟩
instance : Min Duration := ⟨fun a b => if a ≤ b then a else b⟩

theorem le_iff {a b : Duration} : a ≤ b ↔ a.nanos ≤ b.nanos := Iff.rfl

@[simp] theorem nanos_max (a b : Duration) : (max a b).nanos = max a.nanos b.nanos := by
  change (if a ≤ b then b else a).nanos = _
  split <;> rename_i h <;> rw [le_iff] at h <;> omega

@[simp] theorem nanos_min (a b : Duration) : (min a b).nanos = min a.nanos b.nanos := by
  change (if a ≤ b then a else b).nanos = _
  split <;> rename_i h <;> rw [le_iff] at h <;> omega

/-- The duration of `n` nanoseconds, or the longest one. -/
def ofNanos (n : Nat) : Duration := ⟨min n maxNanos, Nat.min_le_right _ _⟩

@[simp] theorem nanos_ofNanos (n : Nat) : (ofNanos n).nanos = min n maxNanos := rfl

def ofMillis (n : Nat) : Duration := ofNanos (n * 1000000)
def ofSeconds (n : Nat) : Duration := ofNanos (n * 1000000000)

theorem nanos_ofMillis {n : Nat} (word : n < Word.count64) :
    (ofMillis n).nanos = n * 1000000 := by
  simp only [ofMillis, nanos_ofNanos, maxNanos, Word.count64] at *
  omega

theorem nanos_ofSeconds {n : Nat} (word : n < Word.count64) :
    (ofSeconds n).nanos = n * 1000000000 := by
  simp only [ofSeconds, nanos_ofNanos, maxNanos, Word.count64] at *
  omega

def zero : Duration := ofNanos 0
def longest : Duration := ofNanos maxNanos

instance : Inhabited Duration := ⟨zero⟩

def millis (d : Duration) : Nat := d.nanos / 1000000

def seconds (d : Duration) : Nat := d.nanos / 1000000000

def subsecond (d : Duration) : Nat := d.nanos % 1000000000

def add (a b : Duration) : Duration := ofNanos (a.nanos + b.nanos)
def times (n : Nat) (d : Duration) : Duration := ofNanos (n * d.nanos)

instance : Add Duration := ⟨add⟩

def second : Duration := ofSeconds 1
def minute : Duration := ofSeconds 60
def hour : Duration := ofSeconds 3600
def day : Duration := ofSeconds 86400

structure Bounds where
  lowest : Duration
  highest : Duration
  ordered : lowest ≤ highest

def within (b : Bounds) (d : Duration) : Duration := max b.lowest (min d b.highest)

/-- Brings a duration into a range, unless the range is the wrong way round. -/
def clamp? (d lowest highest : Duration) : Option Duration :=
  if ordered : lowest ≤ highest then some (d.within ⟨lowest, highest, ordered⟩) else none

theorem clamp?_eq_some {lowest highest : Duration} (ordered : lowest ≤ highest) (d : Duration) :
    d.clamp? lowest highest = some (d.within ⟨lowest, highest, ordered⟩) := by
  rw [clamp?, dif_pos ordered]

@[simp] theorem nanos_within (b : Bounds) (d : Duration) :
    (d.within b).nanos = max b.lowest.nanos (min d.nanos b.highest.nanos) := by
  simp [within]

/-- Whole seconds and the part below a second, each made a double and then added. -/
def toFloat (d : Duration) : Float :=
  Float.ofNat d.seconds + Float.ofNat d.subsecond / 1e9

/-- The duration of `mantissa * 2 ^ exponent` seconds to the nearest nanosecond. -/
def ofBinarySeconds? (mantissa : Nat) (exponent : Int) : Option Duration :=
  let (num, den) := Binary.quotient mantissa exponent
  if num < Word.count64 * den then some (ofNanos (roundHalfEven (num * 1000000000) den)) else none

/-- The duration of `x` seconds, if `x` is a number from zero to below `2 ^ 64`. -/
def ofFloat? (x : Float) : Option Duration :=
  match Binary.ofFloat x with
  | .finite negative mantissa exponent =>
    if negative && mantissa != 0 then none else ofBinarySeconds? mantissa exponent
  | _ => none

def scale? (x : Float) (d : Duration) : Option Duration := ofFloat? (x * d.toFloat)

end Duration
end DelayedJobs
