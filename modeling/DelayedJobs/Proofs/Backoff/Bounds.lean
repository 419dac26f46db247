import DelayedJobs.Backoff
import DelayedJobs.Proofs.Settings.Safety
import DelayedJobs.Proofs.Time.Conversion

/-!
Delays of failed attempts on doubles: never longer than the limit and, with clamped settings, never
shorter after a later attempt. Little is asked of powers, and nothing of logarithms: once the
shortcut has been taken it is taken by all later attempts, whatever number it starts from.
-/

namespace DelayedJobs

open Rounding

structure FloatLibrary.Growing (library : FloatLibrary) : Prop where
  mono : ∀ f, 1 < f → ∀ x y, x ≤ y → library.pow f x ≤ library.pow f y
  one_le : ∀ f, 1 < f → ∀ x, 1 ≤ x → 1 ≤ library.pow f x

namespace Settings

variable {library : FloatLibrary} {s : Settings} {n m a b : Nat}

theorem delayBy_le_max (library : FloatLibrary) (s : Settings) (attempt : Nat) :
    s.delayBy library attempt ≤ max s.retryInterval s.maxRetryInterval := by
  have limit : max s.maxRetryInterval s.retryInterval ≤ max s.retryInterval s.maxRetryInterval := by
    simp only [Duration.le_iff, Duration.nanos_max]
    omega
  have converted (d : Option Duration) :
      d.elim (max s.maxRetryInterval s.retryInterval)
        (min · (max s.maxRetryInterval s.retryInterval)) ≤
        max s.retryInterval s.maxRetryInterval := by
    cases d with
    | none => exact limit
    | some d =>
      refine Nat.le_trans ?_ limit
      rw [Option.elim_some, Duration.nanos_min]
      exact Nat.min_le_right _ _
  unfold delayBy Backoff.delay
  dsimp only
  split
  next => exact converted (some _)
  next =>
    split
    next => exact limit
    next => exact converted _

/-- The logarithm says that after `n` failures the limit is reached. -/
def Capped (library : FloatLibrary) (s : Settings) (n : Nat) : Prop :=
  library.ceil (library.log (s.maxRetryInterval.toFloat / s.retryInterval.toFloat) /
    library.log s.retryFactor) ≤ Float.ofNat n

instance : Decidable (s.Capped library n) := by
  unfold Capped
  infer_instance

/-- The product for `n` failures, in double precision seconds. -/
def product (library : FloatLibrary) (s : Settings) (n : Nat) : Float :=
  s.retryInterval.toFloat * library.pow s.retryFactor (Float.ofNat n)

def upToLimit (s : Settings) (x : Float) : Duration :=
  (Duration.ofFloat? x).elim s.maxRetryInterval (min · s.maxRetryInterval)

theorem delayBy_eq (library : FloatLibrary) (safe : s.Safe) (n : Nat) :
    s.delayBy library n =
      if n ≤ 1 ∨ ¬1 < s.retryFactor then s.retryInterval
      else if s.Capped library (n - 1) then s.maxRetryInterval
      else s.upToLimit (s.product library (n - 1)) := by
  have limit : max s.maxRetryInterval s.retryInterval = s.maxRetryInterval :=
    Duration.max_eq_left safe.retryLe
  have base : min s.retryInterval s.maxRetryInterval = s.retryInterval :=
    Duration.min_eq_left safe.retryLe
  have long : (s.retryInterval.nanos == 0) = false := by
    have least : 1000000000 ≤ s.retryInterval.nanos := safe.retry
    exact beq_false_of_ne (by omega)
  unfold delayBy Backoff.delay
  simp only [limit, base]
  have first :
      (decide (n ≤ 1) || !decide (1 < s.retryFactor) || s.retryInterval.nanos == 0) = true ↔
      n ≤ 1 ∨ ¬1 < s.retryFactor := by
    rw [long, Bool.or_false, Bool.or_eq_true, decide_eq_true_eq, Bool.not_eq_true',
      decide_eq_false_iff_not]
  exact if_congr first rfl (if_congr decide_eq_true_iff rfl rfl)

theorem Capped.mono (h : s.Capped library n) (positive : 0 < n) (le : n ≤ m) (short : m < 2 ^ 53) :
    s.Capped library m :=
  le_trans_normal (normal_ofNat positive (le.trans_lt short)) h (ofNat_mono positive le short)

section Growth
variable (growing : library.Growing) (grows : 1 < s.retryFactor)
include growing grows

theorem normal_power (positive : 0 < n) (short : n < 2 ^ 53) :
    Normal (-52) (library.pow s.retryFactor (Float.ofNat n)) :=
  normal_one.of_le (by omega) (growing.one_le _ grows _ (one_le_ofNat positive short))

variable (safe : s.Safe)
include safe

theorem normal_product (positive : 0 < n) (short : n < 2 ^ 53) :
    Normal (-253) (s.product library n) :=
  (normal_toFloat safe.retry).mul (normal_power growing grows positive short) (by omega)

theorem le_product (positive : 0 < n) (short : n < 2 ^ 53) :
    s.retryInterval.toFloat ≤ s.product library n :=
  le_mul (normal_toFloat safe.retry) (normal_power growing grows positive short) (by omega)
    (by omega) (growing.one_le _ grows _ (one_le_ofNat positive short))

theorem product_mono (positive : 0 < n) (le : n ≤ m) (short : m < 2 ^ 53) :
    s.product library n ≤ s.product library m := by
  have base := normal_toFloat safe.retry
  exact mul_mono base (normal_power growing grows positive (le.trans_lt short)) base
    (normal_power growing grows (positive.trans_le le) short) (by omega)
    ((le_iff_size_le base base).mpr le_rfl)
    (growing.mono _ grows _ _ (ofNat_mono positive le short))

end Growth

theorem upToLimit_le (s : Settings) (x : Float) : s.upToLimit x ≤ s.maxRetryInterval := by
  rw [upToLimit]
  cases Duration.ofFloat? x with
  | none => exact Nat.le_refl _
  | some d =>
    rw [Option.elim_some, Duration.le_iff, Duration.nanos_min]
    exact Nat.min_le_right _ _

theorem upToLimit_mono {x y : Float} {f g : Int} (hx : Normal f x) (hy : Normal g y) (le : x ≤ y) :
    s.upToLimit x ≤ s.upToLimit y := by
  cases read : Duration.ofFloat? y with
  | none =>
    have limit : s.upToLimit y = s.maxRetryInterval := by rw [upToLimit, read, Option.elim_none]
    rw [limit]
    exact s.upToLimit_le x
  | some d =>
    obtain ⟨c, read', shorter⟩ := ofFloat?_mono hx hy le read
    rw [upToLimit, upToLimit, read, read']
    simp only [Option.elim_some, Duration.le_iff, Duration.nanos_min] at shorter ⊢
    omega

theorem upToLimit_retryInterval (safe : s.Safe) :
    s.upToLimit s.retryInterval.toFloat = s.retryInterval := by
  have short : s.retryInterval ≤ .day := Nat.le_trans safe.retryLe safe.longestRetry
  rw [upToLimit, ofFloat?_toFloat safe.retry short]
  exact Duration.min_eq_left safe.retryLe

theorem delayBy_le (library : FloatLibrary) (safe : s.Safe) (n : Nat) :
    s.delayBy library n ≤ s.maxRetryInterval := by
  rw [delayBy_eq library safe]
  split_ifs
  · exact safe.retryLe
  · exact Nat.le_refl _
  · exact s.upToLimit_le _

theorem le_delayBy (growing : library.Growing) (safe : s.Safe) (short : n ≤ 2 ^ 53) :
    s.retryInterval ≤ s.delayBy library n := by
  rw [delayBy_eq library safe]
  split_ifs with first capped
  · exact Nat.le_refl _
  · exact safe.retryLe
  · obtain ⟨later, grows⟩ := not_or.mp first
    rw [not_not] at grows
    have positive : 0 < n - 1 := by omega
    have below : n - 1 < 2 ^ 53 := by omega
    calc s.retryInterval = s.upToLimit s.retryInterval.toFloat :=
      (upToLimit_retryInterval safe).symm
      _ ≤ s.upToLimit (s.product library (n - 1)) :=
        upToLimit_mono (normal_toFloat safe.retry)
          (normal_product growing grows safe positive below)
          (le_product growing grows safe positive below)

theorem delayBy_mono (growing : library.Growing) (safe : s.Safe) (le : a ≤ b) (short : b ≤ 2 ^ 53) :
    s.delayBy library a ≤ s.delayBy library b := by
  by_cases first : a ≤ 1 ∨ ¬1 < s.retryFactor
  · have base : s.delayBy library a = s.retryInterval := by
      rw [delayBy_eq library safe, if_pos first]
    rw [base]
    exact le_delayBy growing safe short
  · obtain ⟨later, grows⟩ := not_or.mp first
    rw [not_not] at grows
    have positive : 0 < a - 1 := by omega
    have below : b - 1 < 2 ^ 53 := by omega
    have first' : ¬(b ≤ 1 ∨ ¬1 < s.retryFactor) := not_or.mpr ⟨by omega, not_not.mpr grows⟩
    by_cases capped : s.Capped library (b - 1)
    · have limit : s.delayBy library b = s.maxRetryInterval := by
        rw [delayBy_eq library safe, if_neg first', if_pos capped]
      rw [limit]
      exact delayBy_le library safe a
    -- A shortcut that the later attempt does not take was not taken by the earlier one.
    · have before : ¬s.Capped library (a - 1) := fun h => capped (h.mono positive (by omega) below)
      rw [delayBy_eq library safe, delayBy_eq library safe, if_neg first, if_neg first',
        if_neg before, if_neg capped]
      exact upToLimit_mono (normal_product growing grows safe positive (by omega))
        (normal_product growing grows safe (by omega) below)
        (product_mono growing grows safe positive (by omega) below)

/-- Delays stay between the retry interval and its limit and never get shorter, for any logarithm
and any growing power. With the native library they are the delays of `Settings.retryDelay`. -/
theorem delayBy_bounded_mono (growing : library.Growing) :
    (∀ (s : Settings) (attempt : Nat),
      s.delayBy library attempt ≤ max s.retryInterval s.maxRetryInterval) ∧
    ∀ raw : Settings,
      raw.clamped.delayBy library 0 = raw.clamped.retryInterval ∧
      raw.clamped.delayBy library 1 = raw.clamped.retryInterval ∧
      ∀ a b, a ≤ b → b < 2 ^ 32 →
        raw.clamped.retryInterval ≤ raw.clamped.delayBy library a ∧
        raw.clamped.delayBy library a ≤ raw.clamped.delayBy library b ∧
        raw.clamped.delayBy library b ≤ raw.clamped.maxRetryInterval := by
  refine ⟨delayBy_le_max library, fun raw => ?_⟩
  have safe := raw.clamped_safe
  have first (n : Nat) (early : n ≤ 1) :
      raw.clamped.delayBy library n = raw.clamped.retryInterval := by
    rw [delayBy_eq library safe, if_pos (.inl early)]
  refine ⟨first 0 (by omega), first 1 (by omega), fun a b le short => ?_⟩
  exact ⟨le_delayBy growing safe (by omega), delayBy_mono growing safe le (by omega),
    delayBy_le library safe b⟩

def shortLibrary : FloatLibrary where
  log x := if x < 3 then 0.6931471805599453 else 1.791759469228055
  pow f x := if x < 2 then f else if x < 3 then f * f else f * f * f
  ceil _ := 3

theorem shortLibrary_growing : shortLibrary.Growing := by
  have powers (f : Float) (grows : 1 < f) : Normal (-52) f ∧ Normal (-52) (f * f) ∧
      1 ≤ f ∧ f ≤ f * f ∧ f * f ≤ f * f * f := by
    have above := le_of_lt grows
    have one := normal_one.of_le (by omega) above
    have two : Normal (-52) (f * f) := one.mul one (by omega)
    exact ⟨one, two, above, le_mul one one (by omega) (by omega) above,
      le_mul two one (by omega) (by omega) above⟩
  have normalTwo : Normal (-52) 2 := normal_ofNat (by decide) (by decide)
  have normalThree : Normal (-52) 3 := normal_ofNat (by decide) (by decide)
  constructor <;> intro f grows x <;> obtain ⟨one, two, above, first, second⟩ := powers f grows
  · intro y le
    have three := two.of_le (by omega) second
    have self {z : Float} (hz : Normal (-52) z) : z ≤ z := (le_iff_size_le hz hz).mpr le_rfl
    simp only [shortLibrary]
    by_cases x_two : x < 2
    · rw [if_pos x_two]
      split
      next => exact self one
      next =>
        split
        next => exact first
        next => exact le_trans_normal two first second
    · rw [if_neg x_two, if_neg (not_lt_of_le normalTwo rfl le x_two)]
      by_cases x_three : x < 3
      · rw [if_pos x_three]
        split
        next => exact self two
        next => exact second
      · rw [if_neg x_three, if_neg (not_lt_of_le normalThree rfl le x_three)]
        exact self three
  · intro _
    have squared := le_trans_normal one above first
    simp only [shortLibrary]
    split
    next => exact above
    next =>
      split
      next => exact squared
      next => exact le_trans_normal two squared second

def doubling : Settings :=
  { retryInterval := .ofSeconds 10, retryFactor := 2, maxRetryInterval := .minute }

theorem doubling_bounded_mono :
    doubling.clamped.delayBy shortLibrary 1 = .ofSeconds 10 ∧
    doubling.clamped.delayBy shortLibrary 3 = .ofSeconds 40 ∧
    doubling.clamped.delayBy shortLibrary 4 = .minute ∧
    doubling.clamped.delayBy shortLibrary 3 ≤ doubling.clamped.delayBy shortLibrary 4 := by
  obtain ⟨-, clamped⟩ := delayBy_bounded_mono shortLibrary_growing
  obtain ⟨-, first, between⟩ := clamped doubling
  refine ⟨first.trans (by decide +kernel), by decide +kernel, by decide +kernel, ?_⟩
  exact (between 3 4 (by omega) (by omega)).2.1

end Settings
end DelayedJobs
