import DelayedJobs.Decimal.Binary
import DelayedJobs.Proofs.Decimal.Rounding

/-!
Doubles that decimals are read as are finite. Rounding a number keeps its exponent almost as it is,
so that a quotient of a bounded number stays bounded; a product that is too large is refused.
-/

open Float.Model Float.Model.UnpackedFloat

namespace DelayedJobs.Rounding

/-- A zero, or a number of at most 53 bits with an exponent of at most `k`. -/
def Under (k : Int) : UnpackedFloat → Prop
  | .zero _ => True
  | .finite _ m e _ => m < 2 ^ 53 ∧ e ≤ k
  | .infinity _ | .notANumber => False

def Bounded (k : Int) (x : Float) : Prop := Under k x.toModel.unpack

variable {k l f : Int} {x y : Float}

theorem Under.mono {u : UnpackedFloat} (h : Under k u) (le : k ≤ l) : Under l u := by
  cases u with
  | zero => trivial
  | finite => exact ⟨h.1, h.2.trans le⟩
  | infinity | notANumber => exact h

theorem Bounded.mono (h : Bounded k x) (le : k ≤ l) : Bounded l x := Under.mono h le

theorem Under.isFinite {u : UnpackedFloat} (h : Under k u) : u.isFinite = true := by
  cases u with
  | zero | finite => rfl
  | infinity | notANumber => exact h.elim

theorem Bounded.isFinite (h : Bounded k x) : x.isFinite = true := Under.isFinite h

section Packed
variable {s : Sign} {m : Nat} {e : Int} {h : 0 < m}

theorem unpack_packedZero (s : Sign) :
    UnpackedFloat.unpack Format.binary64 (UnpackedFloat.pack Format.binary64 (.zero s)) =
      .zero s := by
  cases s <;> rfl

theorem unpack_packedInfinity (s : Sign) : UnpackedFloat.unpack Format.binary64
    (UnpackedFloat.pack Format.binary64 (.infinity s)) = .infinity s := by
  cases s <;> rfl

theorem under_unpack {bits : BitVec Format.binary64.numBits}
    (some_ : unpackExponent bits ≠ -1#11)
    (most : ((unpackExponent bits).toNat : Int) - 1075 ≤ k) (floor : -1074 ≤ k) :
    Under k (UnpackedFloat.unpack Format.binary64 bits) := by
  have bias : (Format.binary64.exponentBias + Format.binary64.mantissaBitsWithoutImplicit : Int) =
      1075 := rfl
  rw [UnpackedFloat.unpack]
  simp only [bias]
  rw [if_neg some_]
  split_ifs with subnormal zero
  · trivial
  · refine ⟨(unpackMantissa bits).isLt.trans (by decide), ?_⟩
    rw [subnormal]
    exact floor
  · exact ⟨(1#1 ++ unpackMantissa bits).isLt, most⟩

theorem under_unpack_packComponents (s : Sign) {exponent : BitVec 11} {fraction : BitVec 52}
    (some_ : exponent ≠ -1#11) (most : (exponent.toNat : Int) - 1075 ≤ k) (floor : -1074 ≤ k) :
    Under k (UnpackedFloat.unpack Format.binary64
      (packComponents Format.binary64 s exponent fraction)) :=
  under_unpack (by rwa [unpackExponent_packComponents])
    (by rwa [unpackExponent_packComponents]) floor

theorem under_of_isFinite {bits : BitVec Format.binary64.numBits}
    (finite : (UnpackedFloat.unpack Format.binary64 bits).isFinite = true) :
    Under 971 (UnpackedFloat.unpack Format.binary64 bits) := by
  have some_ : unpackExponent bits ≠ -1#11 := by
    intro ones
    rw [UnpackedFloat.unpack] at finite
    simp only at finite
    rw [if_pos ones] at finite
    split_ifs at finite <;> cases finite
  have most : (unpackExponent bits).toNat < 2048 := (unpackExponent bits).isLt
  have room : (unpackExponent bits).toNat ≠ 2047 := fun same =>
    some_ (BitVec.eq_of_toNat_eq same)
  exact under_unpack some_ (by omega) (by omega)

/-- A packed number has at most the exponent it had before, unless there is no room for that. -/
theorem unpack_pack_finite (s : Sign) (h : 0 < m) (floor : -1074 ≤ k) (most : e ≤ k) :
    UnpackedFloat.unpack Format.binary64 (UnpackedFloat.pack Format.binary64 (.finite s m e h)) =
        .infinity s ∧ 971 < e ∨
      Under k (UnpackedFloat.unpack Format.binary64
        (UnpackedFloat.pack Format.binary64 (.finite s m e h))) := by
  have biased : (e + Format.binary64.exponentBias +
      Format.binary64.mantissaBitsWithoutImplicit).toNat = (e + 1075).toNat := by
    simp only [Format.exponentBias]
    norm_num
    omega
  rw [UnpackedFloat.pack]
  simp only [biased]
  split_ifs with large normal
  · exact .inl ⟨unpack_packedInfinity s, by norm_num at large; omega⟩
  · have fits : (e + 1075).toNat < 2047 := by norm_num at large; omega
    have exponent : (BitVec.ofNat 11 (e + 1075).toNat).toNat = (e + 1075).toNat := by
      rw [BitVec.toNat_ofNat, Nat.mod_eq_of_lt (by omega)]
    refine .inr (under_unpack_packComponents s (fun ones => ?_) (by omega) floor)
    have value := congrArg BitVec.toNat ones
    rw [exponent] at value
    exact absurd value (Nat.ne_of_lt fits)
  · exact .inr (under_unpack_packComponents s (by decide) (by norm_num; omega) floor)

end Packed

section Rounded
variable {m : Nat} {e : Int}

theorem log2_lt_of_lt_two_pow {n : Nat} (short : m < 2 ^ (n + 1)) : m.log2 < n + 1 := by
  by_cases zero : m = 0
  · rw [zero, Nat.log2_zero]
    omega
  · exact (Nat.log2_lt zero).mpr short

theorem log2_two_pow_mul {n : Nat} (positive : 0 < m) : (2 ^ n * m).log2 = n + m.log2 := by
  induction n with
  | zero => rw [Nat.pow_zero, Nat.one_mul, Nat.zero_add]
  | succ n ih =>
    rw [Nat.pow_succ', Nat.mul_assoc, Nat.log2_two_mul (by positivity), ih, Nat.add_right_comm]

theorem exponent_shiftToTargetExponent (m : Nat) (e : Int) (a : Accuracy) :
    (shiftToTargetExponent Format.binary64 m e a).2 = max e (max (m.log2 + e - 52) (-1074)) := by
  simp only [shiftToTargetExponent, shiftToExponent, Format.targetExponent, totalExponent,
    Format.mantissaBits, Format.minExponent]
  norm_num
  omega

theorem roundedMantissa_shiftToTargetExponent_le (m : Nat) (e : Int) (a : Accuracy) :
    (shiftToTargetExponent Format.binary64 m e a).1.roundedMantissa ≤ 2 ^ 53 := by
  obtain ⟨k, shift⟩ : ∃ k, (Format.binary64.targetExponent (totalExponent m e) - e).toNat = k :=
    ⟨_, rfl⟩
  have shifted : (shiftToTargetExponent Format.binary64 m e a).1.mantissa = m / 2 ^ k := by
    rw [← shift, ← mantissa_ofMantissaAndAccuracy m a, ← mantissa_shiftRight,
      mantissa_ofMantissaAndAccuracy]
    rfl
  have wide : m.log2 + 1 ≤ 53 + k := by
    rw [← shift]
    simp only [Format.targetExponent, totalExponent, Format.mantissaBits, Format.minExponent]
    norm_num
    omega
  have short : m / 2 ^ k < 2 ^ 53 := by
    rw [Nat.div_lt_iff_lt_mul (Nat.two_pow_pos k), ← Nat.pow_add]
    exact Nat.lt_log2_self.trans_le (Nat.pow_le_pow_right two_pos wide)
  have rounded := roundedMantissa_eq (shiftToTargetExponent Format.binary64 m e a).1
  rw [shifted] at rounded
  omega

/-- Rounding raises an exponent only as far as the mantissa is too long, and by one for
the carry. -/
theorem bounded_round (s : Sign) (a : Accuracy) (floor : -1073 ≤ k) (room : k ≤ 971)
    (exponent : e + 1 ≤ k) (length : m.log2 + e ≤ k + 51) :
    Bounded k (.ofModel (.pack (roundWithAccuracy Format.binary64 s m e a))) := by
  show Under k (UnpackedFloat.unpack _ (UnpackedFloat.pack _ _))
  have first := exponent_shiftToTargetExponent m e a
  have carry := roundedMantissa_shiftToTargetExponent_le m e a
  rw [roundWithAccuracy]
  generalize shiftToTargetExponent Format.binary64 m e a = shifted at *
  obtain ⟨em, e₁⟩ := shifted
  dsimp only at first carry ⊢
  have second := exponent_shiftToTargetExponent em.roundedMantissa e₁ .exact
  have bits : em.roundedMantissa.log2 < 54 := log2_lt_of_lt_two_pow (by omega)
  generalize shiftToTargetExponent Format.binary64 em.roundedMantissa e₁ .exact = again at *
  obtain ⟨final, e₂⟩ := again
  dsimp only at second ⊢
  split_ifs with zero
  · rw [unpack_packedZero]
    trivial
  · have most : e₂ ≤ k := by omega
    obtain ⟨-, large⟩ | under := unpack_pack_finite s (Nat.pos_of_ne_zero zero) (by omega) most
    · omega
    · exact under

end Rounded

section Operations

/-- A number of all 53 bits with an exponent of at least `f`. -/
def AtLeast (f : Int) : UnpackedFloat → Bool
  | .finite _ m e _ => decide (2 ^ 52 ≤ m ∧ f ≤ e)
  | _ => false

theorem log2_quotient_lt {m n : Nat} (short : m < 2 ^ 53) (full : 2 ^ 52 ≤ n) (shift : Nat) :
    ((m <<< shift) / n).log2 < shift + 1 := by
  refine log2_lt_of_lt_two_pow ((Nat.div_lt_iff_lt_mul (by omega)).mpr ?_)
  have power := Nat.two_pow_pos shift
  calc m <<< shift = m * 2 ^ shift := Nat.shiftLeft_eq ..
    _ < 2 ^ 53 * 2 ^ shift := Nat.mul_lt_mul_of_pos_right short power
    _ = 2 ^ (shift + 1) * 2 ^ 52 := by rw [Nat.pow_succ]; ring
    _ ≤ 2 ^ (shift + 1) * n := Nat.mul_le_mul_left _ full

theorem Bounded.div (hx : Bounded k x) (hy : AtLeast f y.toModel.unpack = true)
    (floor : -1073 ≤ l) (room : l ≤ 971) (least : k - f + 1 ≤ l) : Bounded l (x / y) := by
  have result : x / y = .ofModel (.pack (UnpackedFloat.div Format.binary64 x.toModel.unpack
    y.toModel.unpack)) := rfl
  rw [Bounded] at hx
  rw [result]
  cases yu : y.toModel.unpack with
  | zero | infinity | notANumber =>
    rw [yu] at hy
    cases hy
  | finite t n f' positive =>
    rw [yu] at hy
    obtain ⟨full, low⟩ := of_decide_eq_true hy
    cases xu : x.toModel.unpack with
    | infinity | notANumber =>
      rw [xu] at hx
      exact hx.elim
    | zero s =>
      show Under l (UnpackedFloat.unpack _ (UnpackedFloat.pack _ (.zero (s / t))))
      rw [unpack_packedZero]
      trivial
    | finite s m e _ =>
      rw [xu] at hx
      obtain ⟨short, high⟩ := hx
      rw [UnpackedFloat.div, divCore]
      dsimp only
      generalize Format.binary64.targetExponent _ = target
      obtain ⟨shift, amount⟩ : ∃ d, (e - f' - min (e - f') target).toNat = d := ⟨_, rfl⟩
      rw [amount]
      have length := log2_quotient_lt short full shift
      refine bounded_round (s / t) _ floor room ?_ ?_ <;> omega

/-- Packing makes no number infinite but for want of room. -/
theorem isFinite_pack {u : UnpackedFloat} (finite : u.isFinite = true)
    (fits : (Float.ofModel (.pack u)).isInf = false) :
    (Float.ofModel (.pack u)).isFinite = true := by
  change (UnpackedFloat.unpack _ (UnpackedFloat.pack _ u)).isInf = false at fits
  change (UnpackedFloat.unpack _ (UnpackedFloat.pack _ u)).isFinite = true
  cases u with
  | infinity | notANumber => cases finite
  | zero s => rw [unpack_packedZero]; rfl
  | finite s m e positive =>
    obtain ⟨infinite, -⟩ | under :=
      unpack_pack_finite s positive (le_max_right e (-1074)) (le_max_left e (-1074))
    · rw [infinite] at fits
      cases fits
    · exact under.isFinite

theorem isFinite_roundWithAccuracy (s : Sign) (m : Nat) (e : Int) (a : Accuracy) :
    (roundWithAccuracy Format.binary64 s m e a).isFinite = true := by
  rw [roundWithAccuracy]
  dsimp only
  split_ifs <;> rfl

theorem isFinite_mul (hx : x.isFinite = true) (hy : y.isFinite = true)
    (fits : (x * y).isInf = false) : (x * y).isFinite = true := by
  refine isFinite_pack
    (u := UnpackedFloat.mul Format.binary64 x.toModel.unpack y.toModel.unpack) ?_ fits
  change x.toModel.unpack.isFinite = true at hx
  change y.toModel.unpack.isFinite = true at hy
  generalize x.toModel.unpack = u at *
  generalize y.toModel.unpack = v at *
  cases u with
  | infinity | notANumber => cases hx
  | zero s =>
    cases v with
    | infinity | notANumber => cases hy
    | zero | finite => rfl
  | finite s m e _ =>
    cases v with
    | infinity | notANumber => cases hy
    | zero => rfl
    | finite t n f _ => exact isFinite_roundWithAccuracy _ _ _ _

theorem isFinite_neg (hx : x.isFinite = true) : (-x).isFinite = true := by
  show (UnpackedFloat.unpack _ (UnpackedFloat.pack _ x.toModel.unpack.neg)).isFinite = true
  have bounded : Under 971 x.toModel.unpack := under_of_isFinite hx
  cases u : x.toModel.unpack with
  | infinity | notANumber =>
    rw [u] at bounded
    exact bounded.elim
  | zero s =>
    rw [UnpackedFloat.neg, unpack_packedZero]
    rfl
  | finite s m e positive =>
    rw [u] at bounded
    have most : e ≤ 971 := bounded.2
    obtain ⟨-, large⟩ | under := unpack_pack_finite (-s) positive (by omega) most
    · omega
    · exact under.isFinite

end Operations

section Decimals
open Decimal

theorem tenTo_eq {n : Nat} (least : 23 ≤ n) (most : n ≤ 2048) : tenTo n =
    .ofModel (.pack
      (roundWithAccuracy Format.binary64 .positive (2 ^ 53 * 10 ^ n) (-53) .exact)) := by
  rw [tenTo, Float.ofScientific, dif_neg (by omega)]
  show Float.ofModel (.pack (UnpackedFloat.ofScientific Format.binary64 1 (n : Int))) = _
  rw [UnpackedFloat.ofScientific, dif_neg one_ne_zero, if_neg (by norm_num; omega),
    if_neg (by norm_num; omega), if_pos (Int.natCast_nonneg n), UnpackedFloat.mul]
  rfl

theorem atLeast_tenTo {n : Nat} (fits : n ≤ 308) :
    AtLeast (-52) (tenTo n).toModel.unpack = true := by
  obtain small | medium | rfl : n < 23 ∨ (23 ≤ n ∧ n ≤ 307) ∨ n = 308 := by omega
  · have all : ∀ n < 23, AtLeast (-52) (tenTo n).toModel.unpack = true := by decide +kernel
    exact all n small
  · obtain ⟨least, most⟩ := medium
    have bits : (2 ^ 53 * 10 ^ n).log2 = 52 + ((10 ^ n).log2 + 1) := by
      rw [log2_two_pow_mul (by positivity)]
      omega
    have short : (10 ^ n).log2 < 1022 := log2_lt_of_lt_two_pow (by
      refine lt_of_le_of_lt (Nat.pow_le_pow_right (by decide) most) ?_
      decide +kernel)
    obtain ⟨m, e, positive, eq, full, range, -⟩ :=
      roundWithAccuracy_full (e := -53) .exact bits (by omega)
    have shape : Full m e := ⟨full.1, full.2, by omega, by omega⟩
    rw [tenTo_eq least (by omega), eq, unpack_of_bits shape (pack_full (h := positive) shape)]
    exact decide_eq_true ⟨full.1, by omega⟩
  · decide +kernel

theorem atLeast_tenTo_308 : AtLeast 971 (tenTo 308).toModel.unpack = true := by decide +kernel

theorem bounded_scaleDown (n : Nat) (h : Bounded 20 x) : Bounded 100 (scaleDown x n) := by
  induction n using Nat.strong_induction_on generalizing x with
  | _ n ih =>
    rw [scaleDown]
    split_ifs with large zero
    · exact h.mono (by omega)
    · exact ih (n - 308) (by omega) (h.div atLeast_tenTo_308 (by omega) (by omega) (by omega))
    · exact h.div (atLeast_tenTo (by omega)) (by omega) (by omega) (by omega)

theorem bounded_ofNat {n : Nat} (fits : n < Word.count64) : Bounded 20 (Float.ofNat n) := by
  obtain rfl | positive := Nat.eq_zero_or_pos n
  · trivial
  · obtain ⟨m, e, full, bits, -, high⟩ := between_ofNat positive fits
    have room : e ≤ 20 := by
      by_contra large
      have scale : (2 : ℚ) ^ (21 : ℤ) ≤ 2 ^ e := zpow_le_zpow_right₀ one_le_two (by omega)
      have least : ((2 : ℚ) ^ 52) ≤ m := by exact_mod_cast full.least
      have most : (n : ℚ) ≤ 18446744073709551616 := by exact_mod_cast fits.le
      have product := mul_le_mul least scale (by positivity) (by positivity)
      norm_num at product
      linarith
    rw [Bounded, unpack_of_bits full bits]
    exact ⟨full.most, room⟩

theorem isFinite_of_atLeast (h : AtLeast f x.toModel.unpack = true) : x.isFinite = true := by
  change x.toModel.unpack.isFinite = true
  cases u : x.toModel.unpack with
  | zero | finite => rfl
  | infinity | notANumber =>
    rw [u] at h
    cases h

theorem isFinite_scaled {digits : Nat} {exponent : Int} (fits : digits < Word.count64)
    (read : scaled? digits exponent = some x) : x.isFinite = true := by
  have whole := bounded_ofNat fits
  rw [scaled?] at read
  split_ifs at read with negative zero large
  · cases read
    exact (bounded_scaleDown _ whole).isFinite
  · cases read
    exact whole.isFinite
  · dsimp only at read
    split at read
    next => cases read
    next room =>
      cases read
      exact isFinite_mul whole.isFinite (isFinite_of_atLeast (atLeast_tenTo (by omega)))
        (by simpa using room)

end Decimals
end DelayedJobs.Rounding
