import DelayedJobs.Proofs.Decimal.Order
import DelayedJobs.Proofs.Settings.KeepAlive

/-!
Clamping settings goes through however large, small or odd they are: no range is the wrong way round
and three tenths of a lease are a duration. What comes out is safe, and settings stay as they are
just when they are safe.
-/

namespace DelayedJobs

namespace Duration
variable {a b d lowest highest : Duration}

theorem max_eq_left (h : b ≤ a) : max a b = a :=
  ext (by rw [nanos_max, Nat.max_eq_left h])

theorem min_eq_left (h : a ≤ b) : min a b = a :=
  ext (by rw [nanos_min, Nat.min_eq_left h])

theorem within_eq_self {bounds : Bounds} (low : bounds.lowest ≤ d) (high : d ≤ bounds.highest) :
    d.within bounds = d :=
  ext (by rw [nanos_within, Nat.min_eq_left high, Nat.max_eq_right low])

theorem lowest_le_within (bounds : Bounds) (d : Duration) : bounds.lowest ≤ d.within bounds := by
  rw [le_iff, nanos_within]
  exact Nat.le_max_left _ _

theorem within_le_highest (bounds : Bounds) (d : Duration) : d.within bounds ≤ bounds.highest := by
  rw [le_iff, nanos_within]
  exact Nat.max_le.mpr ⟨bounds.ordered, Nat.min_le_right _ _⟩

theorem times_le_iff {n : Nat} :
    d.times n ≤ a ↔ n * d.nanos ≤ a.nanos ∨ a = longest := by
  have le_max := a.nanos_le
  rw [le_iff, times, nanos_ofNanos, Duration.ext_iff]
  change _ ↔ _ ∨ a.nanos = maxNanos
  simp only [maxNanos]
  omega

end Duration

namespace Settings
open Duration
variable {s : Settings} {x : Float}

theorem clampFactor_bounds (x : Float) : 1 ≤ clampFactor x ∧ clampFactor x ≤ 10 := by
  rw [clampFactor]
  split
  next => decide
  next number =>
    rw [Bool.not_eq_true] at number
    split
    next => decide
    next high =>
      split
      next => decide
      next low =>
        exact ⟨(Rounding.not_lt_iff number rfl).mp high, (Rounding.not_lt_iff rfl number).mp low⟩

theorem clampFactor_eq_self (low : 1 ≤ x) (high : x ≤ 10) : clampFactor x = x := by
  have number := (Rounding.isNaN_of_le high).1
  rw [clampFactor, number, if_neg Bool.false_ne_true,
    if_neg ((Rounding.not_lt_iff number rfl).mpr low),
    if_neg ((Rounding.not_lt_iff rfl number).mpr high)]

theorem clampFactor_eq_self_of_beq (same : (clampFactor x == x) = true) : clampFactor x = x := by
  have number := Rounding.isNaN_of_beq same
  rw [clampFactor, number, if_neg Bool.false_ne_true] at same ⊢
  split
  next low =>
    rw [if_pos low, (Rounding.beq_eq_false_of_lt low).2] at same
    cases same
  next notLow =>
    split
    next high =>
      rw [if_neg notLow, if_pos high, (Rounding.beq_eq_false_of_lt high).1] at same
      cases same
    next => rfl

theorem threeTenths_of_minute {d : Duration} (long : minute ≤ d) :
    d.scale? 0.3 = some (threeTenths d) ∧ shortestPause ≤ threeTenths d := by
  have near := (near_threeTenths long).1
  have least : 60000000000 ≤ d.nanos := long
  refine ⟨?_, ?_⟩
  · cases scaled : d.scale? 0.3 with
    | some t => rw [threeTenths, scaled, Option.getD_some]
    | none =>
      have whole : threeTenths d = d := by rw [threeTenths, scaled, Option.getD_none]
      have far := (near_threeTenths long).2
      rw [whole] at far
      omega
  · change 100000000 ≤ (threeTenths d).nanos
    omega

theorem clamped?_eq_some (s : Settings) : s.clamped? = some s.clamped := by
  have tenths : s.longPeriod.scale? 0.3 = some (threeTenths s.longPeriod) :=
    (threeTenths_of_minute s.minute_le_keepAlivePeriod).1
  have ordered : second ≤ day := by decide
  have orderedPrune : minute ≤ day := by decide
  have orderedRetry := within_retryBounds_le_day s.retryInterval
  rw [retryBounds] at orderedRetry
  simp only [clamped?, tenths, clamp?_eq_some ordered, clamp?_eq_some orderedPrune,
    clamp?_eq_some orderedRetry, Option.bind_eq_bind, Option.bind_some]
  rfl

theorem clamped_safe (s : Settings) : s.clamped.Safe where
  workers := by
    change (if s.workerCount ≤ mostWorkers then s.workerCount else mostWorkers) ≤ mostWorkers
    split
    next few => exact few
    next => exact UInt64.le_refl _
  poll := by simp only [clamped, clampedTo, le_iff, nanos_max]; omega
  interval := by simp only [clamped, clampedTo, longInterval, le_iff, nanos_max]; omega
  period := s.minute_le_keepAlivePeriod
  threeIntervals := times_le_iff.mpr s.three_intervals_le
  renewalPause := by
    have tenths := (threeTenths_of_minute s.minute_le_keepAlivePeriod).2
    have pause : shortestPause ≤ second := by decide
    simp only [clamped, clampedTo, longInterval, le_iff, nanos_min, nanos_max] at tenths pause ⊢
    omega
  renewalPauseLe := by simp only [clamped, clampedTo, le_iff, nanos_min]; omega
  renewalPauseTenths := s.keepAliveRetryInterval_le
  retry := lowest_le_within retryBounds _
  retryLe := lowest_le_within ⟨_, day, within_retryBounds_le_day _⟩ _
  longestRetry := within_le_highest ⟨_, day, within_retryBounds_le_day _⟩ _
  factor := clampFactor_bounds _
  attempts := by
    change 1 ≤ if s.retryLimit ≤ 1 then 1 else s.retryLimit
    split
    next => exact UInt32.le_refl _
    next more => exact UInt32.le_of_lt (UInt32.not_le.mp more)
  prune := ⟨lowest_le_within pruneBounds _, within_le_highest pruneBounds _⟩
  retention := by simp only [clamped, clampedTo, le_iff, nanos_min]; omega

theorem clamped_eq_self (h : s.Safe) : s.clamped = s := by
  have workers : min s.workerCount mostWorkers = s.workerCount := if_pos h.workers
  have attempts : max s.retryLimit 1 = s.retryLimit := by
    change (if s.retryLimit ≤ 1 then 1 else s.retryLimit) = _
    split
    next least => exact UInt32.le_antisymm h.attempts least
    next => rfl
  have retry : s.retryInterval.within retryBounds = s.retryInterval :=
    within_eq_self h.retry (Nat.le_trans h.retryLe h.longestRetry)
  have longest (ordered : s.retryInterval ≤ day) :
      s.maxRetryInterval.within ⟨s.retryInterval, day, ordered⟩ = s.maxRetryInterval :=
    within_eq_self h.retryLe h.longestRetry
  have prune : s.pruneInterval.within pruneBounds = s.pruneInterval :=
    within_eq_self h.prune.1 h.prune.2
  simp only [clamped, clampedTo, longPeriod, longInterval, workers, attempts, retry, longest, prune,
    max_eq_left h.poll, max_eq_left h.interval, max_eq_left h.period, max_eq_left h.threeIntervals,
    max_eq_left h.renewalPause, min_eq_left h.renewalPauseLe, min_eq_left h.renewalPauseTenths,
    clampFactor_eq_self h.factor.1 h.factor.2, min_eq_left h.retention]

theorem clamped_eq_self_iff : s.clamped = s ↔ s.Safe :=
  ⟨fun same => same ▸ s.clamped_safe, clamped_eq_self⟩

theorem beq_iff {a b : Settings} : (a == b) = true ↔
    (a.retryFactor == b.retryFactor) = true ∧
      { a with retryFactor := b.retryFactor } = b := by
  cases a
  cases b
  simp only [BEq.beq, instBEqSettings.beq, Bool.and_eq_true, decide_eq_true_eq, Settings.mk.injEq]
  tauto

theorem clamped_beq_self_iff : (s.clamped == s) = true ↔ s.Safe := by
  rw [beq_iff, ← clamped_eq_self_iff]
  constructor
  · intro ⟨factor, rest⟩
    have kept : clampFactor s.retryFactor = s.retryFactor := clampFactor_eq_self_of_beq factor
    calc s.clamped = { s.clamped with retryFactor := clampFactor s.retryFactor } := rfl
      _ = { s.clamped with retryFactor := s.retryFactor } := by rw [kept]
      _ = s := rest
  · intro same
    rw [same]
    exact ⟨Rounding.beq_self (Rounding.isNaN_of_le (clamped_eq_self_iff.mp same).factor.2).1, rfl⟩

/-- Whatever the settings, clamping goes through and makes them safe, and it keeps settings just
when they are safe. Three renewal intervals fit into a lease unless it lasts as long as can be. -/
theorem clamped_projects_onto_safe (s : Settings) :
    s.clamped? = some s.clamped ∧ s.clamped.Safe ∧
    (s.clamped = s ↔ s.Safe) ∧ ((s.clamped == s) = true ↔ s.Safe) ∧
    s.clamped.clamped = s.clamped ∧
    (s.keepAliveInterval.times 3 ≤ s.keepAlivePeriod ↔
      3 * s.keepAliveInterval.nanos ≤ s.keepAlivePeriod.nanos ∨ s.keepAlivePeriod = .longest) :=
  ⟨s.clamped?_eq_some, s.clamped_safe, clamped_eq_self_iff, clamped_beq_self_iff,
    clamped_eq_self s.clamped_safe, times_le_iff⟩

end Settings
end DelayedJobs
