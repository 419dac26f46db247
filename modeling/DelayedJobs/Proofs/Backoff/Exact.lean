import DelayedJobs.Backoff
import DelayedJobs.Proofs.Decimal.Monotone

/-!
The delay of a failed attempt in real numbers. There the shortcut through the logarithm is taken
just when the product has reached the limit, so that the delay is the product up to the limit, also
where the limit is the interval itself or the interval times a power of the factor.
-/

namespace DelayedJobs

/-- Durations are real numbers of seconds, and operations are those of real numbers. A conversion
fails for the numbers it fails for on doubles. -/
@[reducible] noncomputable def Reckoning.exact : Reckoning ℝ ℝ where
  isZero d := decide (d = 0)
  seconds d := d
  duration? x := if 0 ≤ x ∧ x < Word.count64 then some x else none
  ofNat n := n
  lt x y := decide (x < y)
  le x y := decide (x ≤ y)
  mul := (· * ·)
  div := (· / ·)
  log := Real.log
  pow := (· ^ ·)
  ceil x := ⌈x⌉

noncomputable def Duration.exactSeconds (d : Duration) : ℝ := d.nanos / 1000000000

noncomputable def Binary.exactValue : Binary → ℝ
  | .finite negative mantissa exponent => (if negative then -1 else 1) * (mantissa * 2 ^ exponent)
  | _ => 0

namespace Backoff

variable {r l f : ℝ}

theorem ceil_log_le_iff (positive : 0 < r) (le : r ≤ l) (grows : 1 < f) (n : ℕ) :
    (⌈Real.log (l / r) / Real.log f⌉ : ℝ) ≤ n ↔ l ≤ r * f ^ n := by
  have ratio : 0 < l / r := div_pos (positive.trans_le le) positive
  have power : 0 < f ^ n := pow_pos (one_pos.trans grows) n
  calc (⌈Real.log (l / r) / Real.log f⌉ : ℝ) ≤ n ↔ Real.log (l / r) / Real.log f ≤ n := by
        rw [← Int.cast_natCast n, Int.cast_le, Int.ceil_le]
    _ ↔ Real.log (l / r) ≤ n * Real.log f := div_le_iff₀ (Real.log_pos grows)
    _ ↔ Real.log (l / r) ≤ Real.log (f ^ n) := by rw [Real.log_pow]
    _ ↔ l / r ≤ f ^ n := Real.log_le_log_iff ratio power
    _ ↔ l ≤ r * f ^ n := div_le_iff₀' positive

theorem exact_delay_eq (positive : 0 < r) (short : max l r < Word.count64) (one_le : 1 ≤ f)
    (attempt : ℕ) :
    letI := Reckoning.exact
    delay r l f attempt = min (r * f ^ (attempt - 1)) (max l r) := by
  have least : r ≤ max l r := le_max_right l r
  have early_iff : (decide (attempt ≤ 1) || !decide (((1 : ℕ) : ℝ) < f) || decide (r = 0)) = true ↔
      attempt ≤ 1 ∨ f ≤ 1 := by
    rw [decide_eq_false positive.ne', Bool.or_false, Bool.or_eq_true, decide_eq_true_eq,
      Bool.not_eq_true', decide_eq_false_iff_not, Nat.cast_one, not_lt]
  unfold delay
  dsimp only
  split
  next early =>
    -- Either there has been no earlier failure or the factor is one.
    have power : f ^ (attempt - 1) = 1 := by
      obtain none_ | constant := early_iff.mp early
      · rw [Nat.sub_eq_zero_of_le none_, pow_zero]
      · rw [le_antisymm constant one_le, one_pow]
    rw [power, mul_one]
  next later =>
    have grows : 1 < f := not_le.mp (not_or.mp (mt early_iff.mpr later)).2
    have capped := ceil_log_le_iff positive least grows (attempt - 1)
    have product : f ^ ((attempt - 1 : ℕ) : ℝ) = f ^ (attempt - 1) := Real.rpow_natCast _ _
    split
    next reached => exact (min_eq_right (capped.mp (of_decide_eq_true reached))).symm
    next notReached =>
      have below : r * f ^ (attempt - 1) < max l r :=
        not_le.mp fun h => notReached (decide_eq_true (capped.mpr h))
      have converted : 0 ≤ r * f ^ (attempt - 1) ∧ r * f ^ (attempt - 1) < Word.count64 :=
        ⟨by positivity, below.trans short⟩
      show (if 0 ≤ r * f ^ ((attempt - 1 : ℕ) : ℝ) ∧ r * f ^ ((attempt - 1 : ℕ) : ℝ) < Word.count64
        then some (r * f ^ ((attempt - 1 : ℕ) : ℝ)) else none).elim _ _ = _
      rw [product, if_pos converted, Option.elim_some]

end Backoff

theorem Duration.exactSeconds_lt (d : Duration) : d.exactSeconds < Word.count64 := by
  have most : (d.nanos : ℝ) ≤ 18446744073709551615999999999 := by exact_mod_cast d.nanos_le
  rw [exactSeconds, div_lt_iff₀ (by norm_num), Nat.cast_ofNat]
  linarith

theorem Duration.exactSeconds_pos {d : Duration} (long : 0 < d.nanos) : 0 < d.exactSeconds :=
  div_pos (by exact_mod_cast long) (by norm_num)

theorem Binary.one_le_exactValue {x : Float} (finite : x.isFinite = true) (one_le : 1 ≤ x) :
    1 ≤ (Binary.ofFloat x).exactValue := by
  have normal := Rounding.normal_one.of_le (by omega) one_le
  rw [Rounding.le_iff_size_le Rounding.normal_one normal] at one_le
  obtain infinite | ⟨m, e, full, -, unpacked⟩ := Rounding.Regular.cases normal
  · change x.toModel.unpack.isFinite = true at finite
    rw [infinite] at finite
    cases finite
  · rw [Rounding.size, Rounding.size, Rounding.unpack_one, unpacked, Rounding.magnitude,
      Rounding.magnitude, WithTop.coe_le_coe] at one_le
    have unit : ((2 ^ 52 : ℕ) : ℚ) * 2 ^ (-52 : ℤ) = 1 := by norm_num
    rw [unit] at one_le
    have value : (Binary.ofFloat x).exactValue = m * 2 ^ e := by
      rw [Rounding.ofFloat_eq, unpacked, Rounding.binary, exactValue]
      simp
    have real : ((1 : ℚ) : ℝ) ≤ ((m * 2 ^ e : ℚ) : ℝ) := Rat.cast_le.mpr one_le
    rwa [value, ← Rat.cast_natCast, ← Rat.cast_ofNat, ← Rat.cast_zpow, ← Rat.cast_mul,
      ← Rat.cast_one]

namespace Settings

variable {s : Settings}

noncomputable def exactFactor (s : Settings) : ℝ := (Binary.ofFloat s.retryFactor).exactValue

/-- The delay of a failed attempt without any rounding, in seconds. -/
noncomputable def exactDelay (s : Settings) (attempt : ℕ) : ℝ :=
  letI := Reckoning.exact
  Backoff.delay s.retryInterval.exactSeconds s.maxRetryInterval.exactSeconds s.exactFactor attempt

def ExactlyCapped (s : Settings) (n : ℕ) : Prop :=
  letI := Reckoning.exact
  Backoff.ceiling s.retryInterval.exactSeconds
    (max s.maxRetryInterval.exactSeconds s.retryInterval.exactSeconds) s.exactFactor ≤ n

/-- Without rounding, a delay is the interval times a power of the factor up to the limit, and the
shortcut is taken just when that product has reached the limit. -/
theorem exactDelay_eq_min (long : 0 < s.retryInterval.nanos)
    (finite : s.retryFactor.isFinite = true) (one_le : 1 ≤ s.retryFactor) (attempt : ℕ) :
    s.exactDelay attempt =
        min (s.retryInterval.exactSeconds * s.exactFactor ^ (attempt - 1))
          (max s.maxRetryInterval.exactSeconds s.retryInterval.exactSeconds) ∧
      (1 < s.exactFactor → (s.ExactlyCapped (attempt - 1) ↔
        max s.maxRetryInterval.exactSeconds s.retryInterval.exactSeconds ≤
          s.retryInterval.exactSeconds * s.exactFactor ^ (attempt - 1))) := by
  have positive := Duration.exactSeconds_pos long
  have short := max_lt s.maxRetryInterval.exactSeconds_lt s.retryInterval.exactSeconds_lt
  have factor := Binary.one_le_exactValue finite one_le
  exact ⟨Backoff.exact_delay_eq positive short factor attempt, fun grows =>
    Backoff.ceil_log_le_iff positive (le_max_right _ _) grows (attempt - 1)⟩

theorem exactDelay_eq_min_of_doubling :
    let s : Settings :=
      { retryInterval := .ofSeconds 10, retryFactor := 2, maxRetryInterval := .ofSeconds 80 }
    s.exactFactor = 2 ∧ s.exactDelay 3 = 40 ∧ s.exactDelay 4 = 80 ∧ s.ExactlyCapped 3 := by
  intro s
  have factor : s.exactFactor = 2 := by
    have two : Binary.ofFloat 2 = .finite false (2 ^ 52) (-51) := by decide +kernel
    show (Binary.ofFloat 2).exactValue = 2
    rw [two, Binary.exactValue]
    norm_num
  have interval : s.retryInterval.exactSeconds = 10 := by
    have nanos : s.retryInterval.nanos = 10000000000 := by decide
    rw [Duration.exactSeconds, nanos]
    norm_num
  have limit : s.maxRetryInterval.exactSeconds = 80 := by
    have nanos : s.maxRetryInterval.nanos = 80000000000 := by decide
    rw [Duration.exactSeconds, nanos]
    norm_num
  have long : 0 < s.retryInterval.nanos := by decide
  obtain ⟨third, -⟩ := exactDelay_eq_min long (by decide +kernel) (by decide +kernel) 3
  obtain ⟨fourth, capped⟩ := exactDelay_eq_min long (by decide +kernel) (by decide +kernel) 4
  rw [factor, interval, limit] at third fourth capped
  refine ⟨factor, by rw [third]; norm_num, by rw [fourth]; norm_num, (capped (by norm_num)).mpr ?_⟩
  norm_num

end Settings
end DelayedJobs
