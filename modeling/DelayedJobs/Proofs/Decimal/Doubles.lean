import Mathlib

/-!
Positive doubles with all 53 bits of their mantissa: what rounding makes of a longer mantissa, and
the bits they are packed in. Subnormal numbers and overflow are left out.
-/

open Float.Model Float.Model.UnpackedFloat

namespace DelayedJobs.Rounding

/-- All 53 bits of a mantissa, and an exponent that a double has room for. -/
structure Full (m : Nat) (e : Int) : Prop where
  least : 2 ^ 52 ≤ m
  most : m < 2 ^ 53
  floor : -1074 ≤ e
  ceiling : e ≤ 971

theorem Full.log2 {m : Nat} {e : Int} (h : Full m e) : m.log2 = 52 := by
  have least := h.least
  exact (Nat.log2_eq_iff (by omega)).mpr ⟨least, h.most⟩

theorem Full.pos {m : Nat} {e : Int} (h : Full m e) : 0 < m :=
  Nat.lt_of_lt_of_le (by decide) h.least

section Mantissa

theorem mantissa_shiftRight (em : ExtendedMantissa) (k : Nat) :
    (em >>> k).mantissa = em.mantissa / 2 ^ k := by
  induction k with
  | zero => exact (Nat.div_one _).symm
  | succ k ih =>
    show (em >>> k).mantissa / 2 = _
    rw [ih, Nat.div_div_eq_div_mul, Nat.pow_succ]

theorem roundedMantissa_eq (em : ExtendedMantissa) :
    em.roundedMantissa = em.mantissa ∨ em.roundedMantissa = em.mantissa + 1 := by
  obtain ⟨m, half, rest⟩ := em
  cases half <;> cases rest <;>
    simp [ExtendedMantissa.roundedMantissa, ExtendedMantissa.accuracy, Accuracy.roundToNearestEven]
  omega

theorem mantissa_ofMantissaAndAccuracy (m : Nat) (a : Accuracy) :
    (ExtendedMantissa.ofMantissaAndAccuracy m a).mantissa = m := by
  cases a with
  | exact => rfl
  | inexact o => cases o <;> rfl

theorem targetExponent_of_log2 {m k : Nat} {e : Int} (bits : m.log2 = 52 + k)
    (normal : -1074 ≤ e + k) :
    Format.binary64.targetExponent (totalExponent m e) = e + k := by
  simp only [Format.targetExponent, totalExponent, Format.mantissaBits, Format.minExponent, bits]
  norm_num
  omega

theorem shiftToTargetExponent_eq {m k : Nat} {e : Int} (a : Accuracy) (bits : m.log2 = 52 + k)
    (normal : -1074 ≤ e + k) :
    shiftToTargetExponent Format.binary64 m e a =
      (ExtendedMantissa.ofMantissaAndAccuracy m a >>> k, e + k) := by
  have shift : (e + k - e).toNat = k := by omega
  rw [shiftToTargetExponent, targetExponent_of_log2 bits normal, shiftToExponent, shift]

theorem ne_zero_of_log2 {m k : Nat} (bits : m.log2 = 52 + k) : m ≠ 0 := by
  rintro rfl
  rw [Nat.log2_zero] at bits
  omega

theorem div_bounds {m k : Nat} (bits : m.log2 = 52 + k) :
    2 ^ 52 ≤ m / 2 ^ k ∧ m / 2 ^ k < 2 ^ 53 := by
  obtain ⟨low, high⟩ := (Nat.log2_eq_iff (ne_zero_of_log2 bits)).mp bits
  have power : 0 < 2 ^ k := Nat.two_pow_pos k
  rw [Nat.le_div_iff_mul_le power, Nat.div_lt_iff_lt_mul power, ← Nat.pow_add, ← Nat.pow_add]
  have carry : 52 + k + 1 = 53 + k := by omega
  exact ⟨low, carry ▸ high⟩

/-- What rounding makes of a mantissa that is known to the given accuracy, `k` bits dropped. -/
def roundedTo (m k : Nat) (a : Accuracy) : Nat :=
  (ExtendedMantissa.ofMantissaAndAccuracy m a >>> k).roundedMantissa

theorem roundedTo_eq (m k : Nat) (a : Accuracy) :
    roundedTo m k a = m / 2 ^ k ∨ roundedTo m k a = m / 2 ^ k + 1 := by
  have rounded := roundedMantissa_eq (ExtendedMantissa.ofMantissaAndAccuracy m a >>> k)
  rwa [mantissa_shiftRight, mantissa_ofMantissaAndAccuracy] at rounded

/-- Rounding drops all bits but 53 and may add one to what is left. -/
theorem roundWithAccuracy_full {m k : Nat} {e : Int} (a : Accuracy) (bits : m.log2 = 52 + k)
    (normal : -1074 ≤ e + k) :
    ∃ m' e' h, roundWithAccuracy Format.binary64 .positive m e a = .finite .positive m' e' h ∧
      (2 ^ 52 ≤ m' ∧ m' < 2 ^ 53) ∧ (e + k ≤ e' ∧ e' ≤ e + k + 1) ∧
      (m' : ℚ) * 2 ^ e' = roundedTo m k a * 2 ^ (e + k) := by
  obtain ⟨least, most⟩ := div_bounds bits
  rw [roundWithAccuracy, shiftToTargetExponent_eq a bits normal]
  have rounded := roundedTo_eq m k a
  rw [roundedTo] at rounded ⊢
  dsimp only
  generalize (ExtendedMantissa.ofMantissaAndAccuracy m a >>> k).roundedMantissa = r at rounded
  have second {j : Nat} (bits' : r.log2 = 52 + j) :
      shiftToTargetExponent Format.binary64 r (e + k) .exact =
        (ExtendedMantissa.ofMantissaAndAccuracy r .exact >>> j, e + k + j) :=
    shiftToTargetExponent_eq .exact bits' (by omega)
  -- The second shift has nothing to do unless rounding up has carried into a 54th bit.
  by_cases carry : r < 2 ^ 53
  · have bits' : r.log2 = 52 + 0 := (Nat.log2_eq_iff (by omega)).mpr ⟨by omega, carry⟩
    rw [second bits']
    dsimp only
    have mantissa : (ExtendedMantissa.ofMantissaAndAccuracy r .exact >>> 0).mantissa = r := by
      rw [mantissa_shiftRight, mantissa_ofMantissaAndAccuracy, Nat.pow_zero, Nat.div_one]
    rw [dif_neg (by omega)]
    refine ⟨_, _, _, rfl, ?_, by omega, ?_⟩
    · omega
    · rw [mantissa, Int.natCast_zero, Int.add_zero]
  · have full : r = 2 ^ 53 := by omega
    have bits' : r.log2 = 52 + 1 := by rw [full, Nat.log2_two_pow]
    rw [second bits']
    dsimp only
    have mantissa : (ExtendedMantissa.ofMantissaAndAccuracy r .exact >>> 1).mantissa = 2 ^ 52 := by
      rw [mantissa_shiftRight, mantissa_ofMantissaAndAccuracy, full]
      rfl
    rw [dif_neg (by omega)]
    refine ⟨_, _, _, rfl, ?_, by omega, ?_⟩
    · omega
    · rw [mantissa, full, zpow_add₀ two_ne_zero]
      norm_num
      ring

end Mantissa

section Packed

theorem pack_full {m : Nat} {e : Int} {h : 0 < m} (full : Full m e) :
    pack Format.binary64 (.finite .positive m e h) =
      packComponents Format.binary64 .positive (BitVec.ofNat 11 (e + 1075).toNat)
        (BitVec.ofNat 52 m) := by
  have floor := full.floor
  have ceiling := full.ceiling
  have bias : (e + Format.binary64.exponentBias +
      Format.binary64.mantissaBitsWithoutImplicit).toNat = (e + 1075).toNat := by
    simp only [Format.exponentBias]
    norm_num
    omega
  rw [UnpackedFloat.pack]
  simp only [full.log2, bias]
  have normal : 52 + 1 = Format.binary64.mantissaBits := rfl
  rw [if_neg (by omega), if_pos normal]

theorem toNat_append {v w : Nat} (x : BitVec v) (y : BitVec w) :
    (x ++ y).toNat = x.toNat * 2 ^ w + y.toNat := by
  rw [BitVec.toNat_append, ← Nat.shiftLeft_add_eq_or_of_lt y.isLt, Nat.shiftLeft_eq]

def fullBits (m : Nat) (e : Int) : BitVec Format.binary64.numBits :=
  packComponents Format.binary64 .positive (BitVec.ofNat 11 (e + 1075).toNat) (BitVec.ofNat 52 m)

theorem unpack_fullBits {m : Nat} {e : Int} (full : Full m e) :
    UnpackedFloat.unpack Format.binary64 (fullBits m e) = .finite .positive m e full.pos := by
  obtain ⟨least, most, floor, ceiling⟩ := full
  have exponent : (BitVec.ofNat 11 (e + 1075).toNat).toNat = (e + 1075).toNat := by
    rw [BitVec.toNat_ofNat, Nat.mod_eq_of_lt (by omega)]
  have mantissa : (1#1 ++ BitVec.ofNat 52 m).toNat = m := by
    rw [toNat_append, BitVec.toNat_ofNat, BitVec.toNat_ofNat]
    omega
  have unbiased : ((e + 1075).toNat : Int) - (Format.binary64.exponentBias +
      Format.binary64.mantissaBitsWithoutImplicit) = e := by
    simp only [Format.exponentBias]
    norm_num
    omega
  have finite : BitVec.ofNat 11 (e + 1075).toNat ≠ -1#11 := by
    intro eq
    have value := congrArg BitVec.toNat eq
    have ones : (-1#11).toNat = 2047 := rfl
    rw [exponent, ones] at value
    omega
  have normal : BitVec.ofNat 11 (e + 1075).toNat ≠ 0#11 := by
    intro eq
    have value := congrArg BitVec.toNat eq
    rw [exponent] at value
    rw [BitVec.toNat_zero] at value
    omega
  rw [UnpackedFloat.unpack, fullBits]
  simp only [unpackMantissa_packComponents, unpackExponent_packComponents,
    unpackSign_packComponents, Sign.ofBitVec_toBitVec]
  rw [if_neg finite, if_neg normal]
  simp only [mantissa, exponent, unbiased]

end Packed

end DelayedJobs.Rounding
