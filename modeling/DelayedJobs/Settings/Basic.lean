import DelayedJobs.Time.Instant

/-!
The numbers that pace a scheduler: workers, polling, lease renewal, retries and pruning. They are
brought into safe ranges before any loop sees them. A lease lasts at least three renewal intervals,
and a failed renewal is repeated well before it ends.
-/

namespace DelayedJobs

structure Settings where
  workerCount : UInt64 := 4
  pollInterval : Duration := .ofSeconds 15
  keepAliveInterval : Duration := .ofSeconds 5
  keepAlivePeriod : Duration := .minute
  keepAliveRetryInterval : Duration := .second
  retryInterval : Duration := .ofSeconds 30
  retryFactor : Float := 1.5
  retryLimit : UInt32 := 10
  maxRetryInterval : Duration := .ofSeconds 21600
  pruneInterval : Duration := .hour
  keepFinished : Duration := .ofSeconds 7776000
deriving BEq, Inhabited

namespace Settings

open Duration

def shortestPause : Duration := .ofMillis 100

def mostWorkers : UInt64 := 1024

def longestRetention : Duration := .ofSeconds (5 * 366 * 86400)

/-- Three tenths of a lease, on double precision seconds. -/
def threeTenths (d : Duration) : Duration := (d.scale? 0.3).getD d

def retryBounds : Bounds := ⟨second, day, by decide⟩
def pruneBounds : Bounds := ⟨minute, day, by decide⟩

theorem within_retryBounds_le_day (d : Duration) : d.within retryBounds ≤ day := by
  rw [le_iff, nanos_within]
  have h : retryBounds.lowest.nanos ≤ retryBounds.highest.nanos := retryBounds.ordered
  have : retryBounds.highest.nanos = day.nanos := rfl
  omega

/-- The factor in the range from one to ten, and one when it is not a number. -/
def clampFactor (x : Float) : Float :=
  if x.isNaN then 1 else if x < 1 then 1 else if 10 < x then 10 else x

def longInterval (s : Settings) : Duration := max s.keepAliveInterval second

def longPeriod (s : Settings) : Duration :=
  max (max s.keepAlivePeriod minute) (s.longInterval.times 3)

/-- The settings in their ranges, with the given durations where a range may not be one. -/
def clampedTo (s : Settings) (tenths retry longest prune : Duration) : Settings where
  workerCount := min s.workerCount mostWorkers
  pollInterval := max s.pollInterval shortestPause
  keepAliveInterval := s.longInterval
  keepAlivePeriod := s.longPeriod
  keepAliveRetryInterval :=
    min (min (max s.keepAliveRetryInterval shortestPause) s.longInterval) tenths
  retryInterval := retry
  retryFactor := clampFactor s.retryFactor
  retryLimit := max s.retryLimit 1
  maxRetryInterval := longest
  pruneInterval := prune
  keepFinished := min s.keepFinished longestRetention

def clamped (s : Settings) : Settings :=
  let retry := s.retryInterval.within retryBounds
  s.clampedTo (threeTenths s.longPeriod) retry
    (s.maxRetryInterval.within ⟨retry, day, within_retryBounds_le_day _⟩)
    (s.pruneInterval.within pruneBounds)

/-- Clamping as it may stop: where a range is the wrong way round or the product is no duration. -/
def clamped? (s : Settings) : Option Settings := do
  let tenths ← s.longPeriod.scale? 0.3
  let retry ← s.retryInterval.clamp? second day
  let longest ← s.maxRetryInterval.clamp? retry day
  let prune ← s.pruneInterval.clamp? minute day
  return s.clampedTo tenths retry longest prune

def leaseEnd (s : Settings) (now : Instant) : Instant := now.after s.keepAlivePeriod

structure Safe (s : Settings) : Prop where
  workers : s.workerCount ≤ mostWorkers
  poll : shortestPause ≤ s.pollInterval
  interval : second ≤ s.keepAliveInterval
  period : minute ≤ s.keepAlivePeriod
  threeIntervals : s.keepAliveInterval.times 3 ≤ s.keepAlivePeriod
  renewalPause : shortestPause ≤ s.keepAliveRetryInterval
  renewalPauseLe : s.keepAliveRetryInterval ≤ s.keepAliveInterval
  renewalPauseTenths : s.keepAliveRetryInterval ≤ threeTenths s.keepAlivePeriod
  retry : second ≤ s.retryInterval
  retryLe : s.retryInterval ≤ s.maxRetryInterval
  longestRetry : s.maxRetryInterval ≤ day
  factor : 1 ≤ s.retryFactor ∧ s.retryFactor ≤ 10
  attempts : 1 ≤ s.retryLimit
  prune : minute ≤ s.pruneInterval ∧ s.pruneInterval ≤ day
  retention : s.keepFinished ≤ longestRetention

end Settings

end DelayedJobs
