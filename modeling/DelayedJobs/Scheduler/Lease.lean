import DelayedJobs.Settings.Basic

/-!
The upkeep of one lease while its job runs. After a pause the lease is renewed; a renewal that
reports the job lost ends the upkeep, one that fails is repeated after a shorter pause, and the end
of the job stops everything. Times are nanoseconds since the scheduler started.
-/

namespace DelayedJobs

namespace Lease

inductive Renewal where
  | kept
  | failed
  | lost
  | panicked
deriving DecidableEq

/-- How the upkeep ends; after a panic the lease counts as held. -/
inductive Ending where
  | held
  | lost
  | panicked
deriving DecidableEq

inductive Phase where
  | resting (wakeAt : Nat)
  /-- A renewal begun at `since` is under way and asks for the lease until `until_`. -/
  | renewing (since : Nat) (until_ : Instant)
  | ended (ending : Ending)
deriving DecidableEq

inductive Event where
  | wake
  | answer (r : Renewal)
  | finish
deriving DecidableEq

def elapsed (now : Nat) : Duration := .ofNanos now

def start (s : Settings) (now : Nat) : Phase := .resting (now + s.keepAliveInterval.nanos)

def step (s : Settings) (clock : Clock) (now : Nat) : Phase → Event → Option Phase
  | .resting wakeAt, .wake =>
    if wakeAt ≤ now then some (.renewing now (s.leaseEnd (clock.read (elapsed now)))) else none
  | .renewing _ _, .answer .kept => some (.resting (now + s.keepAliveInterval.nanos))
  | .renewing _ _, .answer .failed => some (.resting (now + s.keepAliveRetryInterval.nanos))
  | .renewing _ _, .answer .lost => some (.ended .lost)
  | .renewing _ _, .answer .panicked => some (.ended .panicked)
  | .resting _, .finish | .renewing _ _, .finish => some (.ended .held)
  | _, _ => none

namespace Phase

def isEnded : Phase → Bool
  | ended _ => true
  | _ => false

def hijacked : Phase → Bool
  | ended .lost => true
  | _ => false

end Phase
end Lease
end DelayedJobs
