import DelayedJobs.Proofs.Time.Saturation
import DelayedJobs.Proofs.Time.Seconds
import DelayedJobs.Settings.Basic
import DelayedJobs.Scheduler.Lease

/-!
Why leases outlast their renewal. Clamped settings leave room for one interval and two more tries
before a lease ends. Three tenths of a period, on double precision, are right to within a hundredth
of it, which is all that takes.
-/

open DelayedJobs.Rounding

namespace DelayedJobs.Settings

/-- The third try of a renewal comes before the lease ends, if leases end at all. -/
def RenewsInTime (s : Settings) : Prop :=
  s.keepAliveInterval.nanos + 2 * s.keepAliveRetryInterval.nanos < s.keepAlivePeriod.nanos ∨
    s.keepAlivePeriod = .longest

theorem minute_le_keepAlivePeriod (raw : Settings) :
    Duration.minute ≤ raw.clamped.keepAlivePeriod := by
  simp only [clamped, clampedTo, longPeriod, Duration.le_iff, Duration.nanos_max]
  omega

theorem three_intervals_le (raw : Settings) :
    3 * raw.clamped.keepAliveInterval.nanos ≤ raw.clamped.keepAlivePeriod.nanos ∨
      raw.clamped.keepAlivePeriod = .longest := by
  have le_longest := raw.clamped.keepAlivePeriod.nanos_le
  have period : (raw.clamped.keepAliveInterval.times 3).nanos ≤
      raw.clamped.keepAlivePeriod.nanos := by
    simp only [clamped, clampedTo, longPeriod, Duration.nanos_max]
    omega
  rw [Duration.times, Duration.nanos_ofNanos] at period
  obtain fits | saturates :=
    Nat.le_or_le (3 * raw.clamped.keepAliveInterval.nanos) Duration.maxNanos
  · exact .inl (by omega)
  · refine .inr (Duration.ext ?_)
    rw [Nat.min_eq_right saturates] at period
    exact Nat.le_antisymm le_longest period

theorem keepAliveRetryInterval_le (raw : Settings) :
    raw.clamped.keepAliveRetryInterval.nanos ≤
      (threeTenths raw.clamped.keepAlivePeriod).nanos := by
  simp only [clamped, clampedTo, Duration.nanos_min]
  omega

/-- Three tenths of a minute or more come out right to within a hundredth of the whole. -/
theorem near_threeTenths {d : Duration} (long : Duration.minute ≤ d) :
    29 * d.nanos ≤ 100 * (threeTenths d).nanos ∧ 100 * (threeTenths d).nanos ≤ 31 * d.nanos := by
  have minute : 60000000000 ≤ d.nanos := long
  have least : (60000000000 : ℚ) ≤ d.nanos := by exact_mod_cast minute
  have most : (d.nanos : ℚ) ≤ 18446744073709551615999999999 := by exact_mod_cast d.nanos_le
  have small := tiny_le
  have large := le_huge
  have total : Between _ _ d.toFloat :=
    between_toFloat (Nat.div_pos (by omega) (by decide) : 0 < d.nanos / 1000000000)
  have product := between_threeTenths.mul total (by norm_num) (by linarith) (by linarith)
    (by linarith)
  obtain ⟨t, eq, low, high⟩ := ofFloat?_near product (by linarith)
  have tenths : threeTenths d = t := by
    rw [threeTenths, Duration.scale?, eq, Option.getD_some]
  rw [tenths]
  constructor
  · have bound : 29 * (d.nanos : ℚ) ≤ 100 * t.nanos := by linarith
    exact_mod_cast bound
  · have bound : 100 * (t.nanos : ℚ) ≤ 31 * d.nanos := by linarith
    exact_mod_cast bound

theorem clamped_renewsInTime (raw : Settings) : raw.clamped.RenewsInTime := by
  obtain three | longest := raw.three_intervals_le
  · have retry := raw.keepAliveRetryInterval_le
    have tenths := (near_threeTenths raw.minute_le_keepAlivePeriod).2
    have long : Duration.minute.nanos ≤ raw.clamped.keepAlivePeriod.nanos :=
      raw.minute_le_keepAlivePeriod
    have positive : 0 < Duration.minute.nanos := by decide
    -- A third and twice 31 hundredths stay below the whole.
    exact .inl (by omega)
  · exact .inr longest

theorem RenewsInTime.lt_leaseEnd {s : Settings} (h : s.RenewsInTime) (clock : Clock)
    {now granted : Nat} (early : clock.read (Lease.elapsed now) < .latest)
    (soon : now ≤ granted + s.keepAliveInterval.nanos + 2 * s.keepAliveRetryInterval.nanos) :
    clock.read (Lease.elapsed now) < s.leaseEnd (clock.read (Lease.elapsed granted)) := by
  have low := clock.anchor.earliest_le
  simp only [Instant.lt_iff, leaseEnd, Instant.nanos_after, Clock.nanos_read, Lease.elapsed,
    Duration.nanos_ofNanos, Instant.latest, Instant.maxNanos, Duration.maxNanos] at early ⊢
  obtain inTime | longest := h
  · omega
  · have period : s.keepAlivePeriod.nanos = 18446744073709551615999999999 := by
      rw [longest]
      decide
    omega

end DelayedJobs.Settings
