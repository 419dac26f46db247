import DelayedJobs.Command.Execute
import DelayedJobs.Proofs.Settings.KeepAlive

/-!
One arithmetic of instants. Leases and retries, retention, the clock and the delay of an order move
an instant each in a way of its own: through spans that are bounded, seconds that are counted in
words, and sums that may leave the range of time. Wherever one of these does not fit, the exact
result does not fit either, so that all of them agree with whole numbers cut off at the ends of
time.
-/

namespace DelayedJobs

namespace Instant
variable {t t' : Instant} {d d' : Duration}

theorem nanos_afterSeconds (t : Instant) (n : Nat) :
    (t.afterSeconds n).nanos = min (t.nanos + n * 1000000000) maxNanos := by
  rw [afterSeconds, Span.ofSeconds?]
  split
  next word => exact t.nanos_ofNanos?_add?_getD_latest (by omega)
  next long =>
    -- Seconds beyond words are more than all time there is as well.
    have low := t.earliest_le
    have high : maxNanos ≤ t.nanos + n * 1000000000 := by
      simp only [maxNanos, Word.count63] at *
      omega
    exact (Int.min_eq_right high).symm

theorem afterSeconds_eq_after (t : Instant) (n : UInt64) :
    t.afterSeconds n.toNat = t.after (.ofSeconds n.toNat) := by
  refine ext ?_
  rw [nanos_afterSeconds, nanos_after, Duration.nanos_ofSeconds n.toNat_lt, Int.natCast_mul]
  rfl

theorem after_mono (later : t ≤ t') (longer : d ≤ d') : t.after d ≤ t'.after d' := by
  rw [le_iff] at later
  rw [Duration.le_iff] at longer
  rw [le_iff, nanos_after, nanos_after]
  omega

theorem lt_after (early : t < latest) (some_ : 0 < d.nanos) : t < t.after d := by
  have before_end : t.nanos < maxNanos := early
  rw [lt_iff, nanos_after]
  omega

theorem before_after (fits : t.nanos + d.nanos ≤ maxNanos) : (t.after d).before d = t := by
  have low := t.earliest_le
  refine ext ?_
  rw [nanos_before, nanos_after, minNanos]
  omega

end Instant

namespace Settings
variable {s s' raw raw' : Settings} {t t' : Instant}

theorem leaseEnd_mono (later : t ≤ t') (longer : s.keepAlivePeriod ≤ s'.keepAlivePeriod) :
    s.leaseEnd t ≤ s'.leaseEnd t' :=
  Instant.after_mono later longer

theorem keepAlivePeriod_mono (pause : raw.keepAliveInterval ≤ raw'.keepAliveInterval)
    (longer : raw.keepAlivePeriod ≤ raw'.keepAlivePeriod) :
    raw.clamped.keepAlivePeriod ≤ raw'.clamped.keepAlivePeriod := by
  rw [Duration.le_iff] at pause longer
  simp only [clamped, clampedTo, longPeriod, longInterval, Duration.le_iff, Duration.nanos_max,
    Duration.times, Duration.nanos_ofNanos]
  omega

theorem lt_leaseEnd (raw : Settings) (early : t < .latest) : t < raw.clamped.leaseEnd t := by
  have minute : 60000000000 ≤ raw.clamped.keepAlivePeriod.nanos := raw.minute_le_keepAlivePeriod
  exact Instant.lt_after early (by omega)

end Settings

theorem Command.due_of_delay (t : Instant) {o : Order} {n : UInt64} (free : o.at_ = none)
    (delay : o.delay = some n) : due t o = .ofInstant (t.after (.ofSeconds n.toNat)) := by
  rw [due, free, delay, ← t.afterSeconds_eq_after]

/-- Every way to move an instant is exact up to the ends of time, so that moving is monotone, a
lease within time has a length, and what went forth comes back. -/
theorem Instant.arithmetic_saturates_exactly (t : Instant) (d : Duration) :
    (t.after d).nanos = min (t.nanos + d.nanos) maxNanos ∧
    (t.before d).nanos = max (t.nanos - d.nanos) minNanos ∧
    ((Clock.mk t).read d).nanos = min (t.nanos + d.nanos) maxNanos ∧
    (∀ (o : Command.Order) (n : UInt64), o.at_ = none → o.delay = some n →
      Command.due t o = .ofInstant (t.after (.ofSeconds n.toNat)) ∧
        (Duration.ofSeconds n.toNat).nanos = n.toNat * 1000000000) ∧
    (∀ t' d', t ≤ t' → d ≤ d' → t.after d ≤ t'.after d') ∧
    (∀ (s s' : Settings) (t' : Instant), t ≤ t' → s.keepAlivePeriod ≤ s'.keepAlivePeriod →
      s.leaseEnd t ≤ s'.leaseEnd t') ∧
    (∀ (raw raw' : Settings) (t' : Instant), t ≤ t' →
      raw.keepAliveInterval ≤ raw'.keepAliveInterval →
      raw.keepAlivePeriod ≤ raw'.keepAlivePeriod →
      raw.clamped.leaseEnd t ≤ raw'.clamped.leaseEnd t') ∧
    (t < latest → ∀ raw : Settings, t < raw.clamped.leaseEnd t) ∧
    (t.nanos + d.nanos ≤ maxNanos → (t.after d).before d = t) := by
  refine ⟨t.nanos_after d, t.nanos_before d, Clock.nanos_read ⟨t⟩ d, ?_, ?_, ?_, ?_, ?_,
    before_after⟩
  · exact fun o n free delay =>
      ⟨Command.due_of_delay t free delay, Duration.nanos_ofSeconds n.toNat_lt⟩
  · exact fun t' d' later longer => after_mono later longer
  · exact fun s s' t' later longer => Settings.leaseEnd_mono later longer
  · exact fun raw raw' t' later pause longer =>
      Settings.leaseEnd_mono later (Settings.keepAlivePeriod_mono pause longer)
  · exact fun early raw => raw.lt_leaseEnd early

end DelayedJobs
