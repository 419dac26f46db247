import DelayedJobs.Time.Instant

/-!
Moving an instant goes through signed spans and bounded sums, either of which may not fit. Whatever
fails, the result is the exact sum cut off at the ends of time.
-/

namespace DelayedJobs

namespace Instant

theorem nanos_add?_getD_latest (t : Instant) {s : Span} (forward : 0 ≤ s.nanos) :
    ((t.add? s).getD latest).nanos = min (t.nanos + s.nanos) maxNanos := by
  have low := t.earliest_le
  rw [add?, ofNanos?]
  split
  next fits => exact (Int.min_eq_left fits.2).symm
  next exceeds =>
    have high : maxNanos ≤ t.nanos + s.nanos := by
      simp only [minNanos, maxNanos] at *
      omega
    exact (Int.min_eq_right high).symm

theorem nanos_ofNanos?_add?_getD_latest (t : Instant) {n : Int} (forward : 0 ≤ n) :
    (((Span.ofNanos? n).bind t.add?).getD latest).nanos = min (t.nanos + n) maxNanos := by
  have low := t.earliest_le
  rw [Span.ofNanos?]
  split
  next fits => exact t.nanos_add?_getD_latest (s := ⟨n, fits⟩) forward
  next exceeds =>
    have high : maxNanos ≤ t.nanos + n := by
      simp only [maxNanos]
      omega
    exact (Int.min_eq_right high).symm

theorem nanos_after (t : Instant) (d : Duration) :
    (t.after d).nanos = min (t.nanos + d.nanos) maxNanos :=
  t.nanos_ofNanos?_add?_getD_latest (Int.natCast_nonneg d.nanos)

theorem nanos_before (t : Instant) (d : Duration) :
    (t.before d).nanos = max (t.nanos - d.nanos) minNanos := by
  have high := t.le_latest
  rw [before, Span.ofDuration?, Span.ofNanos?]
  split
  next fits =>
    rw [Option.bind_some, sub?, ofNanos?]
    split
    next inside => exact (Int.max_eq_left inside.1).symm
    next exceeds =>
      have low : t.nanos - d.nanos ≤ minNanos := by
        simp only [minNanos, maxNanos] at *
        omega
      exact (Int.max_eq_right low).symm
  next exceeds =>
    have low : t.nanos - d.nanos ≤ minNanos := by
      simp only [minNanos]
      omega
    exact (Int.max_eq_right low).symm

theorem before_le (t : Instant) (d : Duration) : t.before d ≤ t := by
  have low := t.earliest_le
  rw [le_iff, nanos_before, minNanos]
  omega

end Instant

namespace Clock

theorem nanos_read (c : Clock) (elapsed : Duration) :
    (c.read elapsed).nanos = min (c.anchor.nanos + elapsed.nanos) Instant.maxNanos := by
  have low := c.anchor.earliest_le
  rw [read, Span.ofDuration?, Span.ofNanos?]
  split
  next fits => exact c.anchor.nanos_add?_getD_latest (Int.natCast_nonneg _)
  next exceeds =>
    have forward : (0 : Int) ≤ Span.longest.nanos := by decide
    rw [Option.getD_none, c.anchor.nanos_add?_getD_latest forward]
    have high : Instant.maxNanos ≤ c.anchor.nanos + Span.longest.nanos := by
      simp only [Span.longest, Instant.maxNanos]
      omega
    have higher : Instant.maxNanos ≤ c.anchor.nanos + elapsed.nanos := by
      simp only [Instant.maxNanos]
      omega
    rw [Int.min_eq_right high, Int.min_eq_right higher]

end Clock
end DelayedJobs
