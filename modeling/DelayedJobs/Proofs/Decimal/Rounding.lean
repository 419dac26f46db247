import DelayedJobs.Decimal.Binary
import DelayedJobs.Proofs.Decimal.Doubles

/-!
Arithmetic on doubles between rational bounds. A sum or a product is right to within the last of the
53 bits of itself, and a quotient, which is cut off before it is rounded, to within two of them.
-/

open Float.Model Float.Model.UnpackedFloat

namespace DelayedJobs.Rounding

def tiny : ℚ := 2 ^ (-200 : ℤ)
def huge : ℚ := 2 ^ (200 : ℤ)

theorem tiny_pos : 0 < tiny := zpow_pos two_pos _

theorem tiny_le : tiny ≤ 1 / 2 ^ 64 := by
  rw [tiny]
  norm_num

theorem le_huge : 2 ^ 128 ≤ huge := by
  rw [huge]
  norm_num

def Moderate (v : ℚ) : Prop := tiny ≤ v ∧ v ≤ huge

theorem exponent_of_moderate {m k : Nat} {e : Int} (bits : m.log2 = 52 + k)
    (h : Moderate (m * 2 ^ e)) : -253 ≤ e + k ∧ e + k ≤ 148 := by
  obtain ⟨low, high⟩ := (Nat.log2_eq_iff (ne_zero_of_log2 bits)).mp bits
  have two : (1 : ℚ) < 2 := one_lt_two
  have scale : (0 : ℚ) < 2 ^ e := zpow_pos two_pos e
  obtain ⟨tiny, huge⟩ := h
  have least : (2 : ℚ) ^ (52 + k + e : Int) ≤ 2 ^ (200 : ℤ) := by
    refine le_trans ?_ huge
    rw [zpow_add₀ two_ne_zero]
    refine mul_le_mul_of_nonneg_right ?_ scale.le
    exact_mod_cast low
  have most : (2 : ℚ) ^ (-200 : ℤ) < 2 ^ (52 + k + 1 + e : Int) := by
    refine lt_of_le_of_lt tiny ?_
    rw [zpow_add₀ two_ne_zero (52 + k + 1 : Int)]
    refine mul_lt_mul_of_pos_right ?_ scale
    exact_mod_cast high
  rw [zpow_le_zpow_iff_right₀ two] at least
  rw [zpow_lt_zpow_iff_right₀ two] at most
  omega

theorem rounded_bounds {m k r : Nat} (bits : m.log2 = 52 + k)
    (rounded : r = m / 2 ^ k ∨ r = m / 2 ^ k + 1) :
    2 ^ 52 * m ≤ 2 ^ 52 * (r * 2 ^ k) + m ∧ 2 ^ 52 * (r * 2 ^ k) ≤ 2 ^ 52 * m + m := by
  obtain ⟨least, -⟩ := div_bounds bits
  have rest := Nat.mod_lt m (Nat.two_pow_pos k)
  have split := Nat.div_add_mod m (2 ^ k)
  have many : 2 ^ 52 * 2 ^ k ≤ 2 ^ k * (m / 2 ^ k) := by
    rw [Nat.mul_comm]
    exact Nat.mul_le_mul_left _ (by omega)
  have product : r * 2 ^ k = 2 ^ k * (m / 2 ^ k) ∨ r * 2 ^ k = 2 ^ k * (m / 2 ^ k) + 2 ^ k := by
    obtain rfl | rfl := rounded
    · exact .inl (Nat.mul_comm _ _)
    · exact .inr (by rw [Nat.mul_comm, Nat.mul_add, Nat.mul_one])
  omega

/-- A double with all bits of its mantissa, between two bounds. -/
def Between (low high : ℚ) (x : Float) : Prop :=
  ∃ m e, Full m e ∧
    x.toModel.toBits.toBitVec = fullBits m e ∧ low ≤ m * 2 ^ e ∧ m * 2 ^ e ≤ high

theorem between_round {m : Nat} {e : Int} (a : Accuracy) (full : 2 ^ 52 ≤ m)
    (moderate : Moderate (m * 2 ^ e)) :
    Between ((1 - 1 / 2 ^ 52) * (m * 2 ^ e)) ((1 + 1 / 2 ^ 52) * (m * 2 ^ e))
      (.ofModel (.pack (roundWithAccuracy Format.binary64 .positive m e a))) := by
  obtain ⟨k, bits⟩ := Nat.exists_eq_add_of_le ((Nat.le_log2 (by omega)).mpr full)
  have range := exponent_of_moderate bits moderate
  obtain ⟨m', e', h, eq, full', exponent, value⟩ :=
    roundWithAccuracy_full (e := e) a bits (by omega)
  have shape : Full m' e' := ⟨full'.1, full'.2, by omega, by omega⟩
  refine ⟨m', e', shape, ?_, ?_⟩
  · rw [eq]
    exact pack_full (h := h) shape
  · obtain ⟨low, high⟩ := rounded_bounds bits (roundedTo_eq m k a)
    have scale : (0 : ℚ) < 2 ^ e := zpow_pos two_pos e
    have low' : (2 ^ 52 : ℚ) * m ≤ 2 ^ 52 * (roundedTo m k a * 2 ^ k) + m := by exact_mod_cast low
    have high' : (2 ^ 52 : ℚ) * (roundedTo m k a * 2 ^ k) ≤ 2 ^ 52 * m + m := by
      exact_mod_cast high
    rw [value, zpow_add₀ two_ne_zero, zpow_natCast]
    constructor
    · nlinarith
    · nlinarith

theorem unpack_of_bits {x : Float} {m : Nat} {e : Int} (full : Full m e)
    (bits : x.toModel.toBits.toBitVec = fullBits m e) :
    x.toModel.unpack = .finite .positive m e full.pos := by
  rw [Float.Model.unpack, bits]
  exact unpack_fullBits full

variable {a b c d : ℚ} {x y : Float}

theorem Between.mono (h : Between b c x) (low : a ≤ b) (high : c ≤ d) : Between a d x := by
  obtain ⟨m, e, shape, bits, least, most⟩ := h
  exact ⟨m, e, shape, bits, low.trans least, most.trans high⟩

theorem Moderate.of_between {v : ℚ} (low : tiny ≤ a) (high : b ≤ huge)
    (least : a ≤ v) (most : v ≤ b) : Moderate v :=
  ⟨low.trans least, most.trans high⟩

theorem Between.mul (hx : Between a b x) (hy : Between c d y) (ha : 0 ≤ a) (hc : 0 ≤ c)
    (low : tiny ≤ a * c) (high : b * d ≤ huge) :
    Between ((1 - 1 / 2 ^ 52) * (a * c)) ((1 + 1 / 2 ^ 52) * (b * d)) (x * y) := by
  obtain ⟨m, e, mshape, mbits, mlow, mhigh⟩ := hx
  obtain ⟨n, f, nshape, nbits, nlow, nhigh⟩ := hy
  have product : ((m * n : Nat) : ℚ) * 2 ^ (e + f) = m * 2 ^ e * (n * 2 ^ f) := by
    rw [zpow_add₀ two_ne_zero, Nat.cast_mul]
    ring
  have least : a * c ≤ (m * n : Nat) * 2 ^ (e + f) := by
    rw [product]
    exact mul_le_mul mlow nlow hc (ha.trans mlow)
  have most : ((m * n : Nat) : ℚ) * 2 ^ (e + f) ≤ b * d := by
    rw [product]
    exact mul_le_mul mhigh nhigh (hc.trans nlow) (ha.trans (mlow.trans mhigh))
  have full : 2 ^ 52 ≤ m * n := Nat.le_trans mshape.least (Nat.le_mul_of_pos_right m nshape.pos)
  have rounded := between_round .exact full (.of_between low high least most)
  have result : x * y = .ofModel (.pack (roundWithAccuracy Format.binary64 .positive (m * n)
      (e + f) .exact)) := by
    show Float.ofModel (.pack (UnpackedFloat.mul _ x.toModel.unpack y.toModel.unpack)) = _
    rw [unpack_of_bits mshape mbits, unpack_of_bits nshape nbits]
    rfl
  rw [result]
  exact rounded.mono (by linarith) (by linarith)

theorem shiftLeft_value (m k : Nat) (e : Int) :
    ((m <<< k : Nat) : ℚ) * 2 ^ (e - k) = m * 2 ^ e := by
  rw [Nat.shiftLeft_eq, Nat.cast_mul, Nat.cast_pow, Nat.cast_ofNat, zpow_sub₀ two_ne_zero,
    zpow_natCast]
  field_simp

theorem normalize_eq {m : Nat} {e : Int} (positive : 0 < m) (range : 2 ^ 52 ≤ m ∨ -1022 ≤ e) :
    ∃ k, 2 ^ 52 ≤ m <<< k ∧ UnpackedFloat.normalize Format.binary64 m e .positive =
      roundWithAccuracy Format.binary64 .positive (m <<< k) (e - k) .exact := by
  refine ⟨(e - Format.binary64.targetExponent (totalExponent m e)).toNat, ?_, ?_⟩
  · rw [Nat.shiftLeft_eq]
    obtain full | normal := range
    · exact Nat.le_trans full (Nat.le_mul_of_pos_right m (Nat.two_pow_pos _))
    · have target : Format.binary64.targetExponent (totalExponent m e) = m.log2 + e - 52 := by
        simp only [Format.targetExponent, totalExponent, Format.mantissaBits, Format.minExponent]
        norm_num
        omega
      have shift : (e - (m.log2 + e - 52)).toNat = 52 - m.log2 := by omega
      rw [target, shift]
      calc 2 ^ 52 ≤ 2 ^ (m.log2 + (52 - m.log2)) := Nat.pow_le_pow_right two_pos (by omega)
        _ = 2 ^ m.log2 * 2 ^ (52 - m.log2) := Nat.pow_add 2 _ _
        _ ≤ m * 2 ^ (52 - m.log2) :=
          Nat.mul_le_mul_right _ (Nat.log2_self_le (Nat.ne_of_gt positive))
  · have sign : compare (m : Int) 0 = .gt := Int.compare_eq_gt.mpr (by omega)
    rw [UnpackedFloat.normalize, sign]
    rfl

theorem between_normalize {m : Nat} {e : Int} (positive : 0 < m) (range : 2 ^ 52 ≤ m ∨ -1022 ≤ e)
    (moderate : Moderate (m * 2 ^ e)) :
    Between ((1 - 1 / 2 ^ 52) * (m * 2 ^ e)) ((1 + 1 / 2 ^ 52) * (m * 2 ^ e))
      (.ofModel (.pack (UnpackedFloat.normalize Format.binary64 m e .positive))) := by
  obtain ⟨k, full, eq⟩ := normalize_eq positive range
  have value := shiftLeft_value m k e
  rw [eq, ← value]
  exact between_round .exact full (value.symm ▸ moderate)

theorem Between.add (hx : Between a b x) (hy : Between c d y)
    (ha : tiny ≤ a) (hc : 0 ≤ c) (high : b + d ≤ huge) :
    Between ((1 - 1 / 2 ^ 52) * (a + c)) ((1 + 1 / 2 ^ 52) * (b + d)) (x + y) := by
  obtain ⟨m, e, mshape, mbits, mlow, mhigh⟩ := hx
  obtain ⟨n, f, nshape, nbits, nlow, nhigh⟩ := hy
  let least := min e f
  let sum := m <<< (e - least).toNat + n <<< (f - least).toNat
  have result : x + y =
      .ofModel (.pack (UnpackedFloat.normalize Format.binary64 sum least .positive)) := by
    show Float.ofModel (.pack (UnpackedFloat.add _ x.toModel.unpack y.toModel.unpack)) = _
    rw [unpack_of_bits mshape mbits, unpack_of_bits nshape nbits]
    rfl
  have value : (sum : ℚ) * 2 ^ least = m * 2 ^ e + n * 2 ^ f := by
    have first := shiftLeft_value m (e - least).toNat e
    have second := shiftLeft_value n (f - least).toNat f
    have e_least : e - ((e - least).toNat : Int) = least := by omega
    have f_least : f - ((f - least).toNat : Int) = least := by omega
    rw [e_least] at first
    rw [f_least] at second
    rw [Nat.cast_add, add_mul, first, second]
  have full : 2 ^ 52 ≤ sum := by
    refine Nat.le_trans mshape.least (Nat.le_trans ?_ (Nat.le_add_right _ _))
    rw [Nat.shiftLeft_eq]
    exact Nat.le_mul_of_pos_right m (Nat.two_pow_pos _)
  have moderate : Moderate (sum * 2 ^ least) :=
    .of_between (ha.trans (le_add_of_nonneg_right hc)) high
      (value.symm ▸ add_le_add mlow nlow) (value.symm ▸ add_le_add mhigh nhigh)
  have rounded := between_normalize (by omega) (.inl full) moderate
  rw [result]
  rw [value] at rounded
  exact rounded.mono (by linarith) (by linarith)

theorem between_one : Between 1 1 (Float.ofBits 0x3FF0000000000000) := by
  refine ⟨2 ^ 52, -52, ⟨by omega, by omega, by omega, by omega⟩, ?_, ?_, ?_⟩
  · rfl
  · norm_num
  · norm_num

theorem between_billion : Between 1000000000 1000000000 (1e9 : Float) := by
  refine ⟨1000000000 * 2 ^ 23, -23, ⟨by omega, by omega, by omega, by omega⟩, ?_, ?_, ?_⟩
  · rfl
  · norm_num
  · norm_num

theorem between_threeTenths : Between (299 / 1000) (301 / 1000) (0.3 : Float) := by
  refine ⟨5404319552844595, -54, ⟨by omega, by omega, by omega, by omega⟩, ?_, ?_, ?_⟩
  · rfl
  · norm_num
  · norm_num

theorem between_toUInt64 {n : Nat} (positive : 0 < n) (bound : n < 2 ^ 64)
    (moderate : Moderate n) :
    Between ((1 - 1 / 2 ^ 52) * n) ((1 + 1 / 2 ^ 52) * n) n.toUInt64.toFloat := by
  have unit : (n : ℚ) * 2 ^ (0 : ℤ) = n := by rw [zpow_zero, mul_one]
  rw [← unit] at moderate
  have rounded := between_normalize positive (.inr (by omega)) moderate
  rw [unit] at rounded
  have value : n.toUInt64.toNat = n := Nat.mod_eq_of_lt bound
  show Between _ _
    (.ofModel (.pack (UnpackedFloat.normalize _ (n.toUInt64.toNat : Int) 0 .positive)))
  rwa [value]

theorem ofScientific_zero {n : Nat} (positive : 0 < n) :
    UnpackedFloat.ofScientific Format.binary64 n 0 =
      roundWithAccuracy Format.binary64 .positive (n <<< 53) (-53) .exact := by
  have width : Format.binary64.mantissaBits = 53 := rfl
  have sign : Sign.positive * Sign.positive = Sign.positive := rfl
  have fits : ¬(0 : Int) > 2 ^ Format.binary64.exponentBits := by norm_num
  have visible : ¬(0 : Int) < -(2 ^ Format.binary64.exponentBits + n.log2) := by
    norm_num
  rw [UnpackedFloat.ofScientific, dif_neg (Nat.ne_of_gt positive), if_neg fits, if_neg visible,
    if_pos (Int.le_refl 0), UnpackedFloat.mul, sign, width, Int.toNat_zero, Nat.pow_zero,
    Nat.mul_one, Int.add_zero]
  rfl

theorem between_ofNat {n : Nat} (positive : 0 < n) (bound : n < 2 ^ 64) :
    Between ((1 - 1 / 2 ^ 51) * n) ((1 + 1 / 2 ^ 50) * n) (Float.ofNat n) := by
  have least : (1 : ℚ) ≤ n := by exact_mod_cast positive
  have most : (n : ℚ) ≤ 18446744073709551616 := by exact_mod_cast bound.le
  have low := tiny_le
  have high := le_huge
  have moderate : Moderate n := ⟨by linarith, by linarith⟩
  show Between _ _ (Float.ofScientific n false 0)
  rw [Float.ofScientific]
  split
  next small =>
    have product := (between_toUInt64 positive bound moderate).mul between_one (by positivity)
      zero_le_one (by linarith) (by linarith)
    exact product.mono (by linarith) (by linarith)
  next large =>
    have value := shiftLeft_value n 53 0
    rw [zpow_zero, mul_one] at value
    have wide : 2 ^ 52 ≤ n <<< 53 := by
      rw [Nat.shiftLeft_eq]
      omega
    have rounded := between_round .exact wide (value.symm ▸ moderate)
    rw [value] at rounded
    show Between _ _ (.ofModel (.pack (UnpackedFloat.ofScientific Format.binary64 n 0)))
    rw [ofScientific_zero positive]
    exact rounded.mono (by linarith) (by linarith)

theorem quotient_bounds {m n : Nat} (mleast : 2 ^ 52 ≤ m) (nleast : 2 ^ 52 ≤ n)
    (nmost : n < 2 ^ 53) :
    2 ^ 52 ≤ (m <<< 53) / n ∧ (m <<< 53) / n * n ≤ m * 2 ^ 53 ∧
      2 ^ 52 * (m * 2 ^ 53) ≤ 2 ^ 52 * ((m <<< 53) / n * n) + m * 2 ^ 53 := by
  have positive : 0 < n := by omega
  rw [Nat.shiftLeft_eq]
  have full : 2 ^ 52 ≤ m * 2 ^ 53 / n := by
    rw [Nat.le_div_iff_mul_le positive]
    omega
  have rest := Nat.mod_lt (m * 2 ^ 53) positive
  have split := Nat.mod_add_div (m * 2 ^ 53) n
  rw [Nat.mul_comm n] at split
  have many : 2 ^ 52 * n ≤ m * 2 ^ 53 / n * n := Nat.mul_le_mul_right n full
  generalize m * 2 ^ 53 / n * n = product at *
  omega

theorem divCore_full {m n : Nat} {e f : Int} (mshape : Full m e) (nshape : Full n f)
    (apart : -1000 ≤ e - f) :
    divCore Format.binary64 m e n f =
      ((m <<< 53) / n, e - f - 53, accuracyOfFraction ((m <<< 53) % n) n) := by
  have target : min (e - f) (Format.binary64.targetExponent
      (totalExponent m e - totalExponent n f)) = e - f - 53 := by
    simp only [Format.targetExponent, totalExponent, Format.mantissaBits, Format.minExponent,
      mshape.log2, nshape.log2]
    norm_num
    omega
  have shift : (e - f - (e - f - 53)).toNat = 53 := by omega
  rw [divCore, target, shift]

/-- The quotient of two full mantissas, cut off after 53 more bits, against the exact one. -/
theorem quotient_ratio {m n : Nat} {e f : Int} (mshape : Full m e) (nshape : Full n f) :
    (1 - 1 / 2 ^ 52) * (m * 2 ^ e / (n * 2 ^ f)) ≤ (((m <<< 53) / n : Nat) : ℚ) * 2 ^ (e - f - 53) ∧
      (((m <<< 53) / n : Nat) : ℚ) * 2 ^ (e - f - 53) ≤ m * 2 ^ e / (n * 2 ^ f) := by
  obtain ⟨-, below, above⟩ := quotient_bounds mshape.least nshape.least nshape.most
  have below' : (((m <<< 53) / n : Nat) : ℚ) * n ≤ m * 2 ^ 53 := by exact_mod_cast below
  have above' : (2 ^ 52 : ℚ) * (m * 2 ^ 53) ≤
      2 ^ 52 * (((m <<< 53) / n : Nat) * n) + m * 2 ^ 53 := by
    exact_mod_cast above
  have scale : (2 : ℚ) ^ (e - f - 53) = 2 ^ e / (2 ^ f * 2 ^ 53) := by
    rw [zpow_sub₀ two_ne_zero, zpow_sub₀ two_ne_zero, div_div]
    rfl
  have epos : (0 : ℚ) < 2 ^ e := zpow_pos two_pos e
  have fpos : (0 : ℚ) < 2 ^ f := zpow_pos two_pos f
  have npos : (0 : ℚ) < n := by exact_mod_cast nshape.pos
  constructor
  · rw [scale, mul_div_assoc', mul_div_assoc', div_le_div_iff₀ (by positivity) (by positivity)]
    nlinarith [mul_pos epos fpos]
  · rw [scale, mul_div_assoc', div_le_div_iff₀ (by positivity) (by positivity)]
    nlinarith [mul_pos epos fpos]

theorem Between.div (hx : Between a b x) (hy : Between c d y) (ha : tiny ≤ a) (hb : b ≤ huge)
    (hc : tiny ≤ c) (hd : d ≤ huge) (low : tiny ≤ (1 - 1 / 2 ^ 52) * (a / d))
    (high : b / c ≤ huge) :
    Between ((1 - 1 / 2 ^ 51) * (a / d)) ((1 + 1 / 2 ^ 52) * (b / c)) (x / y) := by
  obtain ⟨m, e, mshape, mbits, mlow, mhigh⟩ := hx
  obtain ⟨n, f, nshape, nbits, nlow, nhigh⟩ := hy
  have erange := exponent_of_moderate (k := 0) mshape.log2 (.of_between ha hb mlow mhigh)
  have frange := exponent_of_moderate (k := 0) nshape.log2 (.of_between hc hd nlow nhigh)
  have core := divCore_full mshape nshape (by omega)
  have result : x / y = .ofModel (.pack (roundWithAccuracy Format.binary64 .positive
      ((m <<< 53) / n) (e - f - 53) (accuracyOfFraction ((m <<< 53) % n) n))) := by
    show Float.ofModel (.pack (UnpackedFloat.div _ x.toModel.unpack y.toModel.unpack)) = _
    rw [unpack_of_bits mshape mbits, unpack_of_bits nshape nbits, UnpackedFloat.div, core]
    rfl
  have apos := tiny_pos.trans_le ha
  have cpos := tiny_pos.trans_le hc
  have npos : 0 < (n : ℚ) * 2 ^ f := cpos.trans_le nlow
  have ratio_low : a / d ≤ m * 2 ^ e / (n * 2 ^ f) :=
    div_le_div₀ (apos.le.trans mlow) mlow npos nhigh
  have ratio_high : m * 2 ^ e / (n * 2 ^ f) ≤ b / c :=
    div_le_div₀ (apos.le.trans (mlow.trans mhigh)) mhigh cpos nlow
  obtain ⟨least, most⟩ := quotient_ratio mshape nshape
  have moderate : Moderate (((m <<< 53) / n : Nat) * 2 ^ (e - f - 53)) :=
    ⟨by linarith, by linarith⟩
  have full := (quotient_bounds mshape.least nshape.least nshape.most).1
  rw [result]
  exact (between_round _ full moderate).mono (by linarith) (by linarith)

section Parts

variable {b : BitVec Format.binary64.numBits}

theorem toNat_unpackMantissa : (unpackMantissa b).toNat = b.toNat % 2 ^ 52 := by
  rw [unpackMantissa, BitVec.toNat_cast, BitVec.extractLsb_toNat]
  rfl

theorem toNat_unpackExponent : (unpackExponent b).toNat = b.toNat / 2 ^ 52 % 2 ^ 11 := by
  rw [unpackExponent, BitVec.toNat_cast, BitVec.extractLsb_toNat, Nat.shiftRight_eq_div_pow]
  rfl

theorem toNat_unpackSign : (unpackSign b).toNat = b.toNat / 2 ^ 63 := by
  have bound : b.toNat < 2 ^ 64 := b.isLt
  rw [unpackSign, BitVec.toNat_cast, BitVec.extractLsb_toNat, Nat.shiftRight_eq_div_pow]
  exact Nat.mod_eq_of_lt (Nat.div_lt_of_lt_mul bound)

theorem ofBitVec_unpackSign :
    (Sign.ofBitVec (unpackSign b) == .negative) = decide (Word.count63 ≤ b.toNat) := by
  have sign := toNat_unpackSign (b := b)
  rw [Sign.ofBitVec]
  split_ifs with zero
  · rw [zero, BitVec.toNat_ofNat] at sign
    refine (decide_eq_false ?_).symm
    rw [Word.count63]
    omega
  · have one : (unpackSign b).toNat ≠ 0 := fun same => zero (BitVec.eq_of_toNat_eq same)
    refine (decide_eq_true ?_).symm
    rw [Word.count63]
    omega

def binary : UnpackedFloat → Binary
  | .notANumber => .nan
  | .infinity s => .infinite (s == .negative)
  | .zero s => .finite (s == .negative) 0 (-1074)
  | .finite s m e _ => .finite (s == .negative) m e

theorem ofBits_eq (b : BitVec Format.binary64.numBits) :
    Binary.ofBits b.toNat = binary (UnpackedFloat.unpack Format.binary64 b) := by
  have mantissa := toNat_unpackMantissa (b := b)
  have exponent := toNat_unpackExponent (b := b)
  have bias : (Format.binary64.exponentBias + Format.binary64.mantissaBitsWithoutImplicit : Int) =
      1075 := rfl
  rw [Binary.ofBits, UnpackedFloat.unpack]
  simp only [Binary.leastNormal, ← ofBitVec_unpackSign, bias]
  have fields : b.toNat % 4503599627370496 = (unpackMantissa b).toNat ∧
      b.toNat / 4503599627370496 % 2048 = (unpackExponent b).toNat := ⟨mantissa.symm, exponent.symm⟩
  rw [fields.1, fields.2]
  have special : (unpackExponent b).toNat = 2047 ↔ unpackExponent b = -1#11 :=
    ⟨fun same => BitVec.eq_of_toNat_eq same, fun same => congrArg BitVec.toNat same⟩
  have least : (unpackExponent b).toNat = 0 ↔ unpackExponent b = 0#11 :=
    ⟨fun same => BitVec.eq_of_toNat_eq same, fun same => congrArg BitVec.toNat same⟩
  have blank : (unpackMantissa b).toNat = 0 ↔ unpackMantissa b = 0#52 :=
    ⟨fun same => BitVec.eq_of_toNat_eq same, fun same => congrArg BitVec.toNat same⟩
  simp only [special, least, blank]
  split_ifs with _ zero subnormal zero
  · rfl
  · rfl
  · rw [binary, zero]
    rfl
  · rw [binary, subnormal]
    rfl
  · rw [binary, toNat_append, BitVec.toNat_ofNat]
    rfl

theorem ofFloat_eq (x : Float) : Binary.ofFloat x = binary x.toModel.unpack := ofBits_eq _

end Parts

theorem ofFloat_of_between (h : Between a b x) :
    ∃ m e, Binary.ofFloat x = .finite false m e ∧ a ≤ m * 2 ^ e ∧ m * 2 ^ e ≤ b := by
  obtain ⟨m, e, shape, bits, low, high⟩ := h
  refine ⟨m, e, ?_, low, high⟩
  rw [ofFloat_eq, unpack_of_bits shape bits]
  rfl

theorem Between.add_zero (hx : Between a b x) (zero : y.toModel.toBits.toBitVec = 0) :
    Between a b (x + y) := by
  obtain ⟨m, e, shape, bits, low, high⟩ := hx
  have unpacked : y.toModel.unpack = .zero .positive := by
    rw [Float.Model.unpack, zero]
    rfl
  refine ⟨m, e, shape, ?_, low, high⟩
  show UnpackedFloat.pack _ (UnpackedFloat.add _ x.toModel.unpack y.toModel.unpack) = _
  rw [unpack_of_bits shape bits, unpacked, UnpackedFloat.add]
  · exact pack_full shape
  all_goals simp

end DelayedJobs.Rounding
