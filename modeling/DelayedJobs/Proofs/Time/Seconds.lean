import DelayedJobs.Proofs.Decimal.Rounding
import DelayedJobs.Time.Duration

/-!
Durations through double precision seconds: how far the way there and the way back may be off. Up to
a day that is less than half a nanosecond, and the way back ends where it began.
-/

namespace DelayedJobs

theorem Duration.nanos_eq (d : Duration) : d.nanos = d.seconds * 1000000000 + d.subsecond :=
  (Nat.div_add_mod' d.nanos 1000000000).symm

theorem Duration.subsecond_lt (d : Duration) : d.subsecond < 1000000000 :=
  Nat.mod_lt _ (by decide)

theorem Duration.seconds_lt (d : Duration) : d.seconds < 2 ^ 64 := by
  have longest := d.nanos_le
  rw [d.nanos_eq] at longest
  omega

namespace Rounding

variable {a b : ℚ} {x : Float}

theorem roundHalfEven_bounds (num : Nat) {den : Nat} (positive : 0 < den) :
    2 * (den * roundHalfEven num den) ≤ 2 * num + den ∧
      2 * num ≤ 2 * (den * roundHalfEven num den) + den := by
  have split := Nat.div_add_mod num den
  have rest := Nat.mod_lt num positive
  have near : roundHalfEven num den = num / den ∧ 2 * (num % den) ≤ den ∨
      roundHalfEven num den = num / den + 1 ∧ den ≤ 2 * (num % den) := by
    simp only [roundHalfEven]
    grind
  obtain ⟨eq, low⟩ | ⟨eq, high⟩ := near
  · rw [eq]
    omega
  · rw [eq, Nat.mul_add]
    omega

theorem quotient_value (m : Nat) (e : Int) :
    0 < (Binary.quotient m e).2 ∧
      ((Binary.quotient m e).1 : ℚ) / (Binary.quotient m e).2 = m * 2 ^ e := by
  constructor
  · exact Nat.two_pow_pos _
  · have split : e = (e.toNat : Int) - ((-e).toNat : Int) := by omega
    conv_rhs => rw [split, zpow_sub₀ two_ne_zero, zpow_natCast, zpow_natCast]
    show ((m * 2 ^ e.toNat : Nat) : ℚ) / ((2 ^ (-e).toNat : Nat) : ℚ) = _
    rw [Nat.cast_mul, Nat.cast_pow, Nat.cast_pow, Nat.cast_ofNat, mul_div_assoc]

theorem ofBinarySeconds?_near {m : Nat} {e : Int} (short : (m : ℚ) * 2 ^ e ≤ 18446744073709551615) :
    ∃ d, Duration.ofBinarySeconds? m e = some d ∧
      (m : ℚ) * 2 ^ e * 1000000000 - 1 / 2 ≤ d.nanos ∧
      (d.nanos : ℚ) ≤ m * 2 ^ e * 1000000000 + 1 / 2 := by
  obtain ⟨positive, value⟩ := quotient_value m e
  rw [Duration.ofBinarySeconds?]
  generalize Binary.quotient m e = q at *
  obtain ⟨num, den⟩ := q
  dsimp only at *
  have dpos : (0 : ℚ) < den := by exact_mod_cast positive
  rw [← value] at short ⊢
  have fits : num < Word.count64 * den := by
    have below : (num : ℚ) / den < Word.count64 := by norm_num; linarith
    rw [div_lt_iff₀ dpos] at below
    exact_mod_cast below
  rw [if_pos fits]
  refine ⟨_, rfl, ?_⟩
  obtain ⟨above, below⟩ := roundHalfEven_bounds (num * 1000000000) positive
  generalize roundHalfEven (num * 1000000000) den = r at *
  have above' : (2 : ℚ) * (den * r) ≤ 2 * (num * 1000000000) + den := by exact_mod_cast above
  have below' : (2 : ℚ) * (num * 1000000000) ≤ 2 * (den * r) + den := by exact_mod_cast below
  have scaled : (num : ℚ) / den * 1000000000 = num * 1000000000 / den := by ring
  have high : (r : ℚ) ≤ num / den * 1000000000 + 1 / 2 := by
    rw [scaled, ← sub_le_iff_le_add, le_div_iff₀ dpos]
    linarith
  have low : (num : ℚ) / den * 1000000000 - 1 / 2 ≤ r := by
    rw [scaled, sub_le_iff_le_add, div_le_iff₀ dpos]
    linarith
  have longest : (num : ℚ) / den * 1000000000 - 1 / 2 ≤ Duration.maxNanos := by
    norm_num
    linarith
  rw [Duration.nanos_ofNanos, Nat.cast_min]
  exact ⟨le_min low longest, (min_le_left _ _).trans high⟩

theorem ofFloat?_near (h : Between a b x) (short : b ≤ 18446744073709551615) :
    ∃ d, Duration.ofFloat? x = some d ∧ a * 1000000000 - 1 / 2 ≤ d.nanos ∧
      (d.nanos : ℚ) ≤ b * 1000000000 + 1 / 2 := by
  obtain ⟨m, e, shape, low, high⟩ := ofFloat_of_between h
  obtain ⟨d, eq, least, most⟩ := ofBinarySeconds?_near (high.trans short)
  refine ⟨d, ?_, by linarith, by linarith⟩
  rw [Duration.ofFloat?, shape]
  exact eq

theorem Between.add_subsecond (hx : Between a b x) (low : tiny ≤ a) (high : b + 2 ≤ huge) {n : Nat}
    (below : n < 1000000000) :
    Between ((1 - 1 / 2 ^ 52) * (a + (1 - 1 / 2 ^ 50) * (n / 1000000000)))
      ((1 + 1 / 2 ^ 52) * (b + (1 + 3 / 2 ^ 51) * (n / 1000000000)))
      (x + Float.ofNat n / 1e9) := by
  have apos := tiny_pos.trans_le low
  obtain rfl | positive := Nat.eq_zero_or_pos n
  · have zero : (Float.ofNat 0 / 1e9).toModel.toBits.toBitVec = 0 := rfl
    have bpos : a ≤ b := by
      obtain ⟨m, e, -, -, least, most⟩ := hx
      exact least.trans most
    have none_ : ((0 : Nat) : ℚ) / 1000000000 = 0 := by norm_num
    rw [none_]
    exact (hx.add_zero zero).mono (by linarith) (by linarith)
  · have least : (1 : ℚ) ≤ n := by exact_mod_cast positive
    have most : (n : ℚ) ≤ 1000000000 := by exact_mod_cast below.le
    have small := tiny_le
    have large := le_huge
    have part := (between_ofNat positive (by omega)).div between_billion (by linarith)
      (by linarith) (by linarith) (by linarith) (by linarith) (by linarith)
    have part' : Between ((1 - 1 / 2 ^ 50) * (n / 1000000000))
        ((1 + 3 / 2 ^ 51) * (n / 1000000000)) _ :=
      part.mono (by linarith) (by linarith)
    exact hx.add part' low (by positivity) (by linarith)

/-- Only durations of a second or more: the quotient below a second may be small. -/
theorem between_toFloat {d : Duration} (long : 0 < d.seconds) :
    Between ((1 - 1 / 2 ^ 49) * (d.nanos / 1000000000)) ((1 + 1 / 2 ^ 49) * (d.nanos / 1000000000))
      d.toFloat := by
  have least : (1 : ℚ) ≤ d.seconds := by exact_mod_cast long
  have most : (d.seconds : ℚ) ≤ 18446744073709551616 := by exact_mod_cast d.seconds_lt.le
  have rest : (0 : ℚ) ≤ d.subsecond := Nat.cast_nonneg _
  have total : (d.nanos : ℚ) = d.seconds * 1000000000 + d.subsecond := by exact_mod_cast d.nanos_eq
  have small := tiny_le
  have large := le_huge
  have sum := (between_ofNat long d.seconds_lt).add_subsecond (by linarith) (by linarith)
    d.subsecond_lt
  exact sum.mono (by linarith) (by linarith)

end Rounding

end DelayedJobs
