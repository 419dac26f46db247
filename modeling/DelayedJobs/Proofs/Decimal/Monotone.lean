import DelayedJobs.Proofs.Decimal.Finite
import DelayedJobs.Proofs.Decimal.Order

/-!
Rounding keeps the order of numbers, and so does a product of doubles. All of this is about positive
numbers that need no subnormals; a product that is too large is infinite, and above all others.
-/

open Float.Model Float.Model.UnpackedFloat

namespace DelayedJobs

theorem roundHalfEven_mono {num den num' den' : Nat} (positive : 0 < den) (positive' : 0 < den')
    (le : num * den' ≤ num' * den) : roundHalfEven num den ≤ roundHalfEven num' den' := by
  have split := Nat.div_add_mod num den
  have split' := Nat.div_add_mod num' den'
  have rest := Nat.mod_lt num positive
  have rest' := Nat.mod_lt num' positive'
  have quotients : num / den ≤ num' / den' := by
    rw [Nat.le_div_iff_mul_le positive']
    refine Nat.le_of_mul_le_mul_right ?_ positive
    calc num / den * den' * den = num / den * den * den' := Nat.mul_right_comm ..
      _ ≤ num * den' := Nat.mul_le_mul_right _ (Nat.div_mul_le_self _ _)
      _ ≤ num' * den := le
  have near : roundHalfEven num den = num / den ∨
      roundHalfEven num den = num / den + 1 := by
    simp only [roundHalfEven]
    grind
  have low : num' / den' ≤ roundHalfEven num' den' := by
    simp only [roundHalfEven]
    grind
  obtain below | same := Nat.lt_or_eq_of_le quotients
  · omega
  -- With equal quotients the remainders decide, as parts of their denominators.
  · have parts : num % den * den' ≤ num' % den' * den := by
      rw [← split, ← split', same, Nat.add_mul, Nat.add_mul] at le
      have swap : den * (num' / den') * den' = den' * (num' / den') * den := by ring
      omega
    have atLeast (half : den ≤ 2 * (num % den)) : den' ≤ 2 * (num' % den') :=
      Nat.le_of_mul_le_mul_right (by nlinarith) positive
    have above (half : den < 2 * (num % den)) : den' < 2 * (num' % den') :=
      Nat.lt_of_mul_lt_mul_right (a := den) (by nlinarith)
    simp only [roundHalfEven, same]
    split_ifs <;> omega

namespace Rounding

section Nearest

/-- The mantissa and the residual bits stand for the quotient `num / den`. -/
structure Represents (em : ExtendedMantissa) (num den : Nat) : Prop where
  mantissa : em.mantissa = num / den
  round : em.roundBit = true ↔ den ≤ 2 * (num % den)
  sticky : em.stickyBit = true ↔ num % den ≠ 0 ∧ 2 * (num % den) ≠ den

variable {em : ExtendedMantissa} {num den : Nat}

theorem Represents.shiftRightOne (h : Represents em num den) (positive : 0 < den) :
    Represents em.shiftRightOne num (den * 2) := by
  obtain ⟨mantissa, round, sticky⟩ := h
  have rest := Nat.mod_lt num positive
  have carried := Nat.mod_mul (x := num) (a := den) (b := 2)
  refine ⟨?_, ?_, ?_⟩
  · rw [ExtendedMantissa.shiftRightOne, mantissa, Nat.div_div_eq_div_mul]
  · rw [ExtendedMantissa.shiftRightOne, mantissa, carried]
    obtain even | odd := Nat.mod_two_eq_zero_or_one (num / den)
    · simp only [even, bne_self_eq_false, Bool.false_eq_true, false_iff]
      omega
    · simp only [odd, bne_iff_ne]
      omega
  · rw [ExtendedMantissa.shiftRightOne, Bool.or_eq_true, round, sticky, carried]
    obtain even | odd := Nat.mod_two_eq_zero_or_one (num / den)
    · rw [even]
      omega
    · rw [odd]
      omega

theorem represents_shiftRight (m k : Nat) :
    Represents (ExtendedMantissa.ofMantissaAndAccuracy m .exact >>> k) m (2 ^ k) := by
  induction k with
  | zero =>
    have rest : m % 2 ^ 0 = 0 := Nat.mod_one m
    refine ⟨(Nat.div_one m).symm, ?_, ?_⟩
    · rw [rest]
      exact ⟨fun h => (by cases h), fun h => absurd h (by decide)⟩
    · rw [rest]
      exact ⟨fun h => (by cases h), fun h => absurd rfl h.1⟩
  | succ k ih => exact ih.shiftRightOne (Nat.two_pow_pos k)

theorem Represents.roundedMantissa (h : Represents em num den) (positive : 0 < den) :
    em.roundedMantissa = roundHalfEven num den := by
  obtain ⟨mantissa, round, sticky⟩ := h
  obtain ⟨m, half, rest⟩ := em
  dsimp only at mantissa round sticky
  subst mantissa
  cases half <;> cases rest <;>
    simp only [ExtendedMantissa.roundedMantissa, ExtendedMantissa.accuracy,
      Accuracy.roundToNearestEven, roundHalfEven, Bool.false_eq_true, false_iff, true_iff] at * <;>
    split_ifs <;> omega

theorem roundedTo_exact (m k : Nat) : roundedTo m k .exact = roundHalfEven m (2 ^ k) :=
  (represents_shiftRight m k).roundedMantissa (Nat.two_pow_pos k)

variable {m n k l : Nat} {e f : Int}

theorem binade_le (below : e < f) : (2 : ℚ) ^ 53 * 2 ^ e ≤ 2 ^ 52 * 2 ^ f :=
  calc (2 : ℚ) ^ 53 * 2 ^ e = 2 ^ 52 * 2 ^ (e + 1) := by
        rw [zpow_add₀ two_ne_zero, zpow_one]
        ring
    _ ≤ 2 ^ 52 * 2 ^ f :=
        mul_le_mul_of_nonneg_left (zpow_le_zpow_right₀ one_le_two below) (by positivity)

theorem roundedTo_bounds (bits : m.log2 = 52 + k) :
    2 ^ 52 ≤ roundedTo m k .exact ∧ roundedTo m k .exact ≤ 2 ^ 53 := by
  obtain ⟨least, most⟩ := div_bounds bits
  obtain eq | eq := roundedTo_eq m k .exact <;> omega

/-- Rounded numbers are in the order of the numbers they come from, if not in the same way. -/
theorem rounded_mono (bits : m.log2 = 52 + k) (bits' : n.log2 = 52 + l)
    (le : (m : ℚ) * 2 ^ e ≤ n * 2 ^ f) :
    (roundedTo m k .exact : ℚ) * 2 ^ (e + k) ≤ roundedTo n l .exact * 2 ^ (f + l) := by
  have epos : (0 : ℚ) < 2 ^ e := zpow_pos two_pos e
  have fpos : (0 : ℚ) < 2 ^ f := zpow_pos two_pos f
  obtain below | same | above := lt_trichotomy (e + k) (f + l)
  -- Between the two numbers there is a power of two.
  · have most : (roundedTo m k .exact : ℚ) ≤ 2 ^ 53 := by
      exact_mod_cast (roundedTo_bounds bits).2
    have least : (2 : ℚ) ^ 52 ≤ roundedTo n l .exact := by
      exact_mod_cast (roundedTo_bounds bits').1
    calc (roundedTo m k .exact : ℚ) * 2 ^ (e + k) ≤ 2 ^ 53 * 2 ^ (e + k) :=
          mul_le_mul_of_nonneg_right most (zpow_pos two_pos _).le
      _ ≤ 2 ^ 52 * 2 ^ (f + l) := binade_le below
      _ ≤ roundedTo n l .exact * 2 ^ (f + l) :=
          mul_le_mul_of_nonneg_right least (zpow_pos two_pos _).le
  -- In one binade the mantissas are rounded as fractions of one unit.
  · have scaled : m * 2 ^ l ≤ n * 2 ^ k := by
      have shift : (2 : ℚ) ^ e * 2 ^ k = 2 ^ f * 2 ^ l := by
        rw [← zpow_natCast, ← zpow_natCast, ← zpow_add₀ two_ne_zero, ← zpow_add₀ two_ne_zero, same]
      have kpos : (0 : ℚ) < 2 ^ k := by positivity
      have scaled : (m : ℚ) * 2 ^ l ≤ n * 2 ^ k := by
        refine le_of_mul_le_mul_right ?_ (mul_pos fpos kpos)
        calc (m : ℚ) * 2 ^ l * (2 ^ f * 2 ^ k) = m * (2 ^ f * 2 ^ l) * 2 ^ k := by ring
          _ = m * 2 ^ e * (2 ^ k * 2 ^ k) := by rw [← shift]; ring
          _ ≤ n * 2 ^ f * (2 ^ k * 2 ^ k) := mul_le_mul_of_nonneg_right le (by positivity)
          _ = n * 2 ^ k * (2 ^ f * 2 ^ k) := by ring
      exact_mod_cast scaled
    have mantissas := roundHalfEven_mono (Nat.two_pow_pos k) (Nat.two_pow_pos l) scaled
    rw [← roundedTo_exact, ← roundedTo_exact] at mantissas
    rw [same]
    exact mul_le_mul_of_nonneg_right (by exact_mod_cast mantissas) (zpow_pos two_pos _).le
  · exfalso
    obtain ⟨low, -⟩ := (Nat.log2_eq_iff (ne_zero_of_log2 bits)).mp bits
    obtain ⟨-, high⟩ := (Nat.log2_eq_iff (ne_zero_of_log2 bits')).mp bits'
    have low' : (2 : ℚ) ^ (52 + k) ≤ m := by exact_mod_cast low
    have high' : (n : ℚ) < 2 ^ (52 + l + 1) := by exact_mod_cast high
    refine absurd le (not_le.mpr ?_)
    calc (n : ℚ) * 2 ^ f < 2 ^ (52 + l + 1) * 2 ^ f := mul_lt_mul_of_pos_right high' fpos
      _ = 2 ^ (53 + (f + l)) := by
          rw [← zpow_natCast, ← zpow_add₀ two_ne_zero]
          congr 1
          push_cast
          ring
      _ ≤ 2 ^ (52 + (e + k)) := zpow_le_zpow_right₀ one_le_two (by omega)
      _ = 2 ^ (52 + k) * 2 ^ e := by
          rw [← zpow_natCast, ← zpow_add₀ two_ne_zero]
          congr 1
          push_cast
          ring
      _ ≤ m * 2 ^ e := mul_le_mul_of_nonneg_right low' epos.le

end Nearest

section Size

theorem Full.lt_of_exponent {m n : Nat} {e f : Int} (hm : Full m e) (hn : Full n f)
    (below : e < f) : (m : ℚ) * 2 ^ e < n * 2 ^ f := by
  have most : (m : ℚ) < 2 ^ 53 := by exact_mod_cast hm.most
  have least : (2 : ℚ) ^ 52 ≤ n := by exact_mod_cast hn.least
  calc (m : ℚ) * 2 ^ e < 2 ^ 53 * 2 ^ e := mul_lt_mul_of_pos_right most (zpow_pos two_pos e)
    _ ≤ 2 ^ 52 * 2 ^ f := binade_le below
    _ ≤ n * 2 ^ f := mul_le_mul_of_nonneg_right least (zpow_pos two_pos f).le

theorem Full.isLE_iff {m n : Nat} {e f : Int} (hm : Full m e) (hn : Full n f) :
    ((compare e f).then (compare m n)).isLE = true ↔ (m : ℚ) * 2 ^ e ≤ n * 2 ^ f := by
  obtain below | rfl | above := lt_trichotomy e f
  · rw [compare_lt_iff_lt.mpr below]
    exact iff_of_true rfl (hm.lt_of_exponent hn below).le
  · rw [compare_eq_iff_eq.mpr rfl, Ordering.eq_then, Nat.isLE_compare,
      mul_le_mul_iff_left₀ (zpow_pos two_pos e), Nat.cast_le]
  · rw [compare_gt_iff_gt.mpr above]
    exact iff_of_false Bool.false_ne_true (not_le.mpr (hn.lt_of_exponent hm above))

/-- A positive number of all 53 bits with an exponent of at least `f`, or positive infinity. -/
def Regular (f : Int) : UnpackedFloat → Prop
  | .finite .positive m e _ => Full m e ∧ f ≤ e
  | .infinity .positive => True
  | _ => False

def magnitude : UnpackedFloat → WithTop ℚ
  | .finite _ m e _ => ((m * 2 ^ e : ℚ) : WithTop ℚ)
  | _ => ⊤

def Normal (f : Int) (x : Float) : Prop := Regular f x.toModel.unpack

def size (x : Float) : WithTop ℚ := magnitude x.toModel.unpack

variable {f g : Int} {u v : UnpackedFloat} {x y z x' y' : Float}

theorem Regular.cases (h : Regular f u) : u = .infinity .positive ∨
    ∃ m e, ∃ full : Full m e, f ≤ e ∧ u = .finite .positive m e full.pos := by
  cases u with
  | notANumber | zero => exact h.elim
  | infinity s =>
    cases s with
    | positive => exact .inl rfl
    | negative => exact h.elim
  | finite s m e positive =>
    cases s with
    | positive => exact .inr ⟨m, e, h.1, h.2, rfl⟩
    | negative => exact h.elim

theorem Regular.mono (h : Regular f u) (le : g ≤ f) : Regular g u := by
  obtain rfl | ⟨m, e, full, low, rfl⟩ := h.cases
  · trivial
  · exact ⟨full, le.trans low⟩

theorem Normal.mono (h : Normal f x) (le : g ≤ f) : Normal g x := Regular.mono h le

theorem le_iff_size_le (hx : Normal f x) (hy : Normal g y) : x ≤ y ↔ size x ≤ size y := by
  rw [size, size]
  change decide (x.toModel.unpack.le y.toModel.unpack = true) = true ↔ _
  rw [decide_eq_true_eq]
  obtain eq | ⟨m, e, full, -, eq⟩ := Regular.cases hx
  · obtain eq' | ⟨n, f, full', -, eq'⟩ := Regular.cases hy
    · rw [eq, eq']
      exact iff_of_true rfl le_rfl
    · rw [eq, eq']
      exact iff_of_false Bool.false_ne_true (not_le.mpr (WithTop.coe_lt_top _))
  · obtain eq' | ⟨n, f, full', -, eq'⟩ := Regular.cases hy
    · rw [eq, eq']
      exact iff_of_true rfl le_top
    · rw [eq, eq', magnitude, magnitude, WithTop.coe_le_coe]
      exact full.isLE_iff full'

theorem Normal.finite_of_le {n : Nat} {e' : Int} {h : 0 < n} (hx : Normal f x) (hy : Normal g y)
    (le : x ≤ y) (eq : y.toModel.unpack = .finite .positive n e' h) :
    ∃ m e, ∃ full : Full m e, f ≤ e ∧ x.toModel.unpack = .finite .positive m e full.pos ∧
      (m : ℚ) * 2 ^ e ≤ n * 2 ^ e' := by
  rw [le_iff_size_le hx hy, size, size, eq] at le
  obtain infinite | ⟨m, e, full, low, eq'⟩ := Regular.cases hx
  · rw [infinite] at le
    exact absurd le (not_le.mpr (WithTop.coe_lt_top _))
  · rw [eq', magnitude, magnitude, WithTop.coe_le_coe] at le
    exact ⟨m, e, full, low, eq', le⟩

theorem Full.value_lt {m : Nat} {e : Int} (h : Full m e) : (m : ℚ) * 2 ^ e < 2 ^ (1024 : ℤ) := by
  have most : (m : ℚ) < 2 ^ (53 : ℤ) := by exact_mod_cast h.most
  have ceiling := h.ceiling
  calc (m : ℚ) * 2 ^ e < 2 ^ (53 : ℤ) * 2 ^ e := mul_lt_mul_of_pos_right most (zpow_pos two_pos e)
    _ = 2 ^ (53 + e) := (zpow_add₀ two_ne_zero _ _).symm
    _ ≤ 2 ^ (1024 : ℤ) := zpow_le_zpow_right₀ one_le_two (by omega)

def fit (v : ℚ) : WithTop ℚ := if v < 2 ^ (1024 : ℤ) then v else ⊤

theorem fit_mono {v w : ℚ} (le : v ≤ w) : fit v ≤ fit w := by
  rw [fit, fit]
  split_ifs with short short'
  · exact WithTop.coe_le_coe.mpr le
  · exact le_top
  · exact absurd (le.trans_lt ‹_›) short
  · exact le_rfl

theorem normal_pack {m : Nat} {e : Int} {h : 0 < m} (least : 2 ^ 52 ≤ m) (most : m < 2 ^ 53)
    (floor : -1074 ≤ e) :
    Normal e (.ofModel (.pack (.finite .positive m e h))) ∧
      size (.ofModel (.pack (.finite .positive m e h))) = fit (m * 2 ^ e) := by
  obtain fits | large := le_or_gt e 971
  · have full : Full m e := ⟨least, most, floor, fits⟩
    have unpacked := unpack_of_bits (x := .ofModel (.pack (.finite .positive m e h))) full
      (pack_full (h := h) full)
    rw [Normal, size, unpacked, fit, if_pos full.value_lt]
    exact ⟨⟨full, le_rfl⟩, rfl⟩
  · have unpacked : (Float.ofModel (.pack (.finite .positive m e h))).toModel.unpack =
        .infinity .positive := by
      have biased : (e + Format.binary64.exponentBias +
          Format.binary64.mantissaBitsWithoutImplicit).toNat = (e + 1075).toNat := by
        simp only [Format.exponentBias]
        norm_num
        omega
      show UnpackedFloat.unpack _ (UnpackedFloat.pack _ _) = _
      rw [UnpackedFloat.pack]
      simp only [biased]
      rw [if_pos (by norm_num; omega)]
      exact unpack_packedInfinity .positive
    have long : ¬(m : ℚ) * 2 ^ e < 2 ^ (1024 : ℤ) := by
      have least' : (2 : ℚ) ^ (52 : ℤ) ≤ m := by exact_mod_cast least
      refine not_lt.mpr ?_
      calc (2 : ℚ) ^ (1024 : ℤ) ≤ 2 ^ (52 + e) := zpow_le_zpow_right₀ one_le_two (by omega)
        _ = 2 ^ (52 : ℤ) * 2 ^ e := zpow_add₀ two_ne_zero _ _
        _ ≤ m * 2 ^ e := mul_le_mul_of_nonneg_right least' (zpow_pos two_pos e).le
    rw [Normal, size, unpacked, fit, if_neg long]
    exact ⟨trivial, rfl⟩

theorem normal_round {m k : Nat} {e : Int} (bits : m.log2 = 52 + k) (floor : -1074 ≤ e + k) :
    Normal (e + k) (.ofModel (.pack (roundWithAccuracy Format.binary64 .positive m e .exact))) ∧
      size (.ofModel (.pack (roundWithAccuracy Format.binary64 .positive m e .exact))) =
        fit (roundedTo m k .exact * 2 ^ (e + k)) := by
  obtain ⟨m', e', h, eq, full, exponent, value⟩ := roundWithAccuracy_full (e := e) .exact bits floor
  have packed := normal_pack (h := h) full.1 full.2 (floor.trans exponent.1)
  rw [eq, ← value]
  exact ⟨packed.1.mono exponent.1, packed.2⟩

theorem log2_product {m n : Nat} {e f : Int} (hm : Full m e) (hn : Full n f) :
    ∃ k, (m * n).log2 = 52 + k ∧ 52 ≤ k := by
  have product : 2 ^ 52 * 2 ^ 52 ≤ m * n := Nat.mul_le_mul hm.least hn.least
  rw [← Nat.pow_add] at product
  have long := (Nat.le_log2 (by omega)).mpr product
  exact ⟨(m * n).log2 - 52, by omega, by omega⟩

theorem mul_eq {m n : Nat} {e f : Int} (hm : Full m e) (hn : Full n f)
    (hx : x.toModel.unpack = .finite .positive m e hm.pos)
    (hy : y.toModel.unpack = .finite .positive n f hn.pos) :
    x * y = .ofModel (.pack
      (roundWithAccuracy Format.binary64 .positive (m * n) (e + f) .exact)) := by
  show Float.ofModel (.pack (UnpackedFloat.mul _ x.toModel.unpack y.toModel.unpack)) = _
  rw [hx, hy]
  rfl

theorem unpack_mul_infinity (hx : Normal f x) (hy : Normal g y)
    (infinite : x.toModel.unpack = .infinity .positive ∨ y.toModel.unpack = .infinity .positive) :
    (x * y).toModel.unpack = .infinity .positive := by
  show UnpackedFloat.unpack _ (UnpackedFloat.pack _
    (UnpackedFloat.mul _ x.toModel.unpack y.toModel.unpack)) = _
  obtain eq | ⟨m, e, full, -, eq⟩ := Regular.cases hx
  · obtain eq' | ⟨n, f, full', -, eq'⟩ := Regular.cases hy <;>
      (rw [eq, eq']; exact unpack_packedInfinity .positive)
  · rw [eq] at infinite
    rw [eq, infinite.resolve_left nofun]
    exact unpack_packedInfinity .positive

theorem Normal.mul (hx : Normal f x) (hy : Normal g y) (room : -1126 ≤ f + g) :
    Normal (f + g + 52) (x * y) := by
  have infinite (h : (x * y).toModel.unpack = .infinity .positive) :
      Normal (f + g + 52) (x * y) := by
    rw [Normal, h]
    trivial
  obtain eq | ⟨m, e, full, low, eq⟩ := Regular.cases hx
  · exact infinite (unpack_mul_infinity hx hy (.inl eq))
  · obtain eq' | ⟨n, e', full', low', eq'⟩ := Regular.cases hy
    · exact infinite (unpack_mul_infinity hx hy (.inr eq'))
    · obtain ⟨k, bits, long⟩ := log2_product full full'
      rw [mul_eq full full' eq eq']
      exact (normal_round bits (by omega)).1.mono (by omega)

theorem mul_mono (hx : Normal f x) (hy : Normal g y) (hx' : Normal f x') (hy' : Normal g y')
    (room : -1126 ≤ f + g) (lex : x ≤ x') (ley : y ≤ y') : x * y ≤ x' * y' := by
  rw [le_iff_size_le (hx.mul hy room) (hx'.mul hy' room)]
  have infinite (h : (x' * y').toModel.unpack = .infinity .positive) :
      size (x * y) ≤ size (x' * y') := by
    have top : size (x' * y') = ⊤ := congrArg magnitude h
    rw [top]
    exact le_top
  obtain eq | ⟨m, e, full, low, eq⟩ := Regular.cases hx'
  · exact infinite (unpack_mul_infinity hx' hy' (.inl eq))
  obtain eq' | ⟨n, e', full', low', eq'⟩ := Regular.cases hy'
  · exact infinite (unpack_mul_infinity hx' hy' (.inr eq'))
  obtain ⟨m₀, e₀, full₀, low₀, eq₀, le₀⟩ := hx.finite_of_le hx' lex eq
  obtain ⟨n₁, e₁, full₁, low₁, eq₁, le₁⟩ := hy.finite_of_le hy' ley eq'
  obtain ⟨k, bits, long⟩ := log2_product full full'
  obtain ⟨l, bits', long'⟩ := log2_product full₀ full₁
  have products : ((m₀ * n₁ : Nat) : ℚ) * 2 ^ (e₀ + e₁) ≤ (m * n : Nat) * 2 ^ (e + e') := by
    rw [zpow_add₀ two_ne_zero, zpow_add₀ two_ne_zero, Nat.cast_mul, Nat.cast_mul]
    calc (m₀ : ℚ) * n₁ * (2 ^ e₀ * 2 ^ e₁) = m₀ * 2 ^ e₀ * (n₁ * 2 ^ e₁) := by ring
      _ ≤ m * 2 ^ e * (n * 2 ^ e') := mul_le_mul le₀ le₁ (by positivity) (by positivity)
      _ = m * n * (2 ^ e * 2 ^ e') := by ring
  rw [mul_eq full full' eq eq', mul_eq full₀ full₁ eq₀ eq₁, (normal_round bits (by omega)).2,
    (normal_round bits' (by omega)).2]
  exact fit_mono (rounded_mono bits' bits products)

theorem unpack_one : (1 : Float).toModel.unpack =
    .finite .positive (2 ^ 52) (-52) (Nat.two_pow_pos 52) := by rfl

theorem full_one : Full (2 ^ 52) (-52) := ⟨by omega, by omega, by omega, by omega⟩

theorem normal_one : Normal (-52) 1 := by
  rw [Normal, unpack_one]
  exact ⟨full_one, le_rfl⟩

theorem size_mul_one (hx : Normal f x) (floor : -1022 ≤ f) : size (x * 1) = size x := by
  obtain eq | ⟨m, e, full, low, eq⟩ := Regular.cases hx
  · rw [size, unpack_mul_infinity hx normal_one (.inl eq), size, eq]
  · have bits : (m * 2 ^ 52).log2 = 52 + 52 := by
      rw [Nat.mul_comm, log2_two_pow_mul full.pos, full.log2]
    have exponent : e + -52 + ((52 : Nat) : Int) = e := by omega
    rw [mul_eq full full_one eq unpack_one, (normal_round bits (by omega)).2, roundedTo_exact,
      roundHalfEven_mul_right m (Nat.two_pow_pos 52), exponent, size, eq]
    exact if_pos full.value_lt

theorem le_mul (hx : Normal f x) (hy : Normal g y) (room : -1022 ≤ f) (room' : -1126 ≤ f + g)
    (one_le : 1 ≤ y) : x ≤ x * y := by
  have lower : Normal (min g (-52)) y := hy.mono (min_le_left _ _)
  have one : Normal (min g (-52)) 1 := normal_one.mono (min_le_right _ _)
  have self : x ≤ x := (le_iff_size_le hx hx).mpr le_rfl
  have grows : x * 1 ≤ x * y := mul_mono hx one hx lower (by omega) self one_le
  rw [le_iff_size_le (hx.mul one (by omega)) (hx.mul lower (by omega)),
    size_mul_one hx room] at grows
  exact (le_iff_size_le hx (hx.mul lower (by omega))).mpr grows

end Size

section Whole

variable {n n' : Nat}

theorem toFloat_toUInt64_eq (positive : 0 < n) (bound : n < 2 ^ 64) :
    ∃ k l, (n <<< k).log2 = 52 + l ∧ (-52 : Int) ≤ 0 - k + l ∧ n.toUInt64.toFloat =
      .ofModel (.pack (roundWithAccuracy Format.binary64 .positive (n <<< k) (0 - k) .exact)) := by
  obtain ⟨k, full, eq⟩ := normalize_eq (e := 0) positive (.inr (by omega))
  obtain ⟨l, bits⟩ := Nat.exists_eq_add_of_le ((Nat.le_log2 (by omega)).mpr full)
  have length : (n <<< k).log2 = k + n.log2 := by
    rw [Nat.shiftLeft_eq, Nat.mul_comm, log2_two_pow_mul positive]
  have value : n.toUInt64.toNat = n := Nat.mod_eq_of_lt bound
  refine ⟨k, l, bits, by omega, ?_⟩
  show Float.ofModel (.pack (UnpackedFloat.normalize _ (n.toUInt64.toNat : Int) 0 .positive)) = _
  rw [value, eq]

theorem normal_toUInt64 (positive : 0 < n) (bound : n < 2 ^ 64) :
    Normal (-52) n.toUInt64.toFloat := by
  obtain ⟨k, l, bits, low, eq⟩ := toFloat_toUInt64_eq positive bound
  rw [eq]
  exact (normal_round bits (by omega)).1.mono low

theorem toUInt64_mono (positive : 0 < n) (le : n ≤ n') (bound : n' < 2 ^ 64) :
    n.toUInt64.toFloat ≤ n'.toUInt64.toFloat := by
  obtain ⟨k, l, bits, low, eq⟩ := toFloat_toUInt64_eq positive (le.trans_lt bound)
  obtain ⟨k', l', bits', low', eq'⟩ := toFloat_toUInt64_eq (positive.trans_le le) bound
  rw [le_iff_size_le (normal_toUInt64 positive (le.trans_lt bound))
    (normal_toUInt64 (positive.trans_le le) bound), eq, eq', (normal_round bits (by omega)).2,
    (normal_round bits' (by omega)).2]
  refine fit_mono (rounded_mono bits bits' ?_)
  rw [shiftLeft_value, shiftLeft_value, zpow_zero, mul_one, mul_one]
  exact_mod_cast le

theorem ofNat_eq_mul (short : n < 2 ^ 53) : Float.ofNat n = n.toUInt64.toFloat * 1 := by
  show Float.ofScientific n false 0 = _
  rw [Float.ofScientific, dif_pos ⟨short, by decide⟩]
  rfl

theorem normal_ofNat (positive : 0 < n) (short : n < 2 ^ 53) : Normal (-52) (Float.ofNat n) := by
  rw [ofNat_eq_mul short]
  exact (normal_toUInt64 positive (by omega)).mul normal_one (by omega)

theorem ofNat_mono (positive : 0 < n) (le : n ≤ n') (short : n' < 2 ^ 53) :
    Float.ofNat n ≤ Float.ofNat n' := by
  rw [ofNat_eq_mul (le.trans_lt short), ofNat_eq_mul short]
  exact mul_mono (normal_toUInt64 positive (by omega)) normal_one
    (normal_toUInt64 (positive.trans_le le) (by omega)) normal_one (by omega)
    (toUInt64_mono positive le (by omega)) ((le_iff_size_le normal_one normal_one).mpr le_rfl)

theorem one_le_ofNat (positive : 0 < n) (short : n < 2 ^ 53) : 1 ≤ Float.ofNat n :=
  ofNat_mono (n := 1) Nat.one_pos positive short

end Whole

section Order

theorem unpack_cases {bits : BitVec Format.binary64.numBits} {s : Sign} {m : Nat} {e : Int}
    {h : 0 < m} (eq : UnpackedFloat.unpack Format.binary64 bits = .finite s m e h) :
    Full m e ∨ e = -1074 := by
  have bias : (Format.binary64.exponentBias + Format.binary64.mantissaBitsWithoutImplicit : Int) =
      1075 := rfl
  rw [UnpackedFloat.unpack] at eq
  simp only [bias] at eq
  split_ifs at eq with special fraction subnormal zero
  · injection eq with _ _ exponent
    rw [subnormal] at exponent
    exact .inr exponent.symm
  · injection eq with _ mantissa exponent
    have most : (unpackExponent bits).toNat < 2 ^ 11 := (unpackExponent bits).isLt
    have room : (unpackExponent bits).toNat ≠ 2047 := fun same =>
      special (BitVec.eq_of_toNat_eq same)
    have least : (unpackExponent bits).toNat ≠ 0 := fun same =>
      subnormal (BitVec.eq_of_toNat_eq same)
    have fraction : (unpackMantissa bits).toNat < 2 ^ 52 := (unpackMantissa bits).isLt
    have sum : 2 ^ 52 + (unpackMantissa bits).toNat = m := by
      rw [← mantissa, toNat_append, BitVec.toNat_ofNat]
      rfl
    exact .inl ⟨by omega, by omega, by omega, by omega⟩

theorem Normal.of_le (hx : Normal f x) (floor : -1074 < f) (h : x ≤ y) : Normal f y := by
  change decide (x.toModel.unpack.le y.toModel.unpack = true) = true at h
  rw [decide_eq_true_eq] at h
  rw [Normal]
  obtain eq | ⟨m, e, full, low, eq⟩ := Regular.cases hx <;> rw [eq] at h
  · cases eq' : y.toModel.unpack with
    | infinity s =>
      cases s with
      | positive => trivial
      | negative =>
        rw [eq'] at h
        cases h
    | notANumber | zero | finite =>
      rw [eq'] at h
      cases h
  · cases eq' : y.toModel.unpack with
    | notANumber | zero =>
      rw [eq'] at h
      cases h
    | infinity s =>
      cases s with
      | positive => trivial
      | negative =>
        rw [eq'] at h
        cases h
    | finite s n e' positive =>
      rw [eq'] at h
      cases s with
      | negative => cases h
      | positive =>
        have least : e ≤ e' := by
          by_contra below
          rw [UnpackedFloat.le, UnpackedFloat.compare,
            compare_gt_iff_gt.mpr (lt_of_not_ge below)] at h
          cases h
        exact ⟨(unpack_cases eq').resolve_right (by omega), low.trans least⟩

theorem le_of_not_normal (hz : Normal (-52) z) (number : x.isNaN = false)
    (h : ¬Normal (-1074) x) : x ≤ z := by
  change decide (x.toModel.unpack.le z.toModel.unpack = true) = true
  rw [decide_eq_true_eq]
  change x.toModel.unpack.isNaN = false at number
  rw [Normal] at h
  cases eq : x.toModel.unpack with
  | notANumber =>
    rw [eq] at number
    cases number
  | zero s =>
    obtain eq' | ⟨n, f, full, low, eq'⟩ := Regular.cases hz <;> (rw [eq']; rfl)
  | infinity s =>
    cases s with
    | positive =>
      rw [eq] at h
      exact absurd trivial h
    | negative =>
      obtain eq' | ⟨n, f, full, low, eq'⟩ := Regular.cases hz <;> (rw [eq']; rfl)
  | finite s m e positive =>
    cases s with
    | negative =>
      obtain eq' | ⟨n, f, full, low, eq'⟩ := Regular.cases hz <;> (rw [eq']; rfl)
    | positive =>
      obtain full | subnormal := unpack_cases eq
      · rw [eq] at h
        exact absurd ⟨full, full.floor⟩ h
      · obtain eq' | ⟨n, f, full, low, eq'⟩ := Regular.cases hz
        · rw [eq']
          rfl
        · rw [eq', UnpackedFloat.le, UnpackedFloat.compare, compare_lt_iff_lt.mpr (by omega)]
          rfl

theorem le_trans_normal (hy : Normal (-52) y) (h : x ≤ y) (h' : y ≤ z) : x ≤ z := by
  have hz := hy.of_le (by omega) h'
  by_cases hx : Normal (-1074) x
  · rw [le_iff_size_le hx hy] at h
    rw [le_iff_size_le hy hz] at h'
    exact (le_iff_size_le hx hz).mpr (h.trans h')
  · exact le_of_not_normal hz (isNaN_of_le h).1 hx

theorem not_lt_of_le (hz : Normal (-52) z) (number : z.isNaN = false) (h : x ≤ y) (least : ¬x < z) :
    ¬y < z := by
  obtain ⟨hx, hy⟩ := isNaN_of_le h
  rw [not_lt_iff hx number] at least
  rw [not_lt_iff hy number]
  exact le_trans_normal (hz.of_le (by omega) least) least h

end Order

end Rounding
end DelayedJobs
