import DelayedJobs.Conformance.Check

/-!
The checks that every store has to pass, each starting from an empty store.
-/

namespace DelayedJobs.Conformance

open Check

variable {σ : Type}

def seconds (n : Nat) : Duration := .ofSeconds n
def days (n : Nat) : Duration := .ofSeconds (n * 86400)

def emptyStoreHasNothingToClaim : Check σ Unit := do
  claimNone (← drawWorker) (← now)

def dueJobIsClaimed : Check σ Unit := do
  let now ← now
  let worker ← drawWorker
  let payload : Payload := ⟨"greet", .object [("name", .string "X")]⟩
  let due := now.before (seconds 1)
  let id ← schedule payload.kind payload.data due
  let job ← claimSome worker now
  ensure (job.id == id)
  ensure (job.payload == payload)
  ensure (job.attempt == 1)
  ensure (job.status == .claimed)
  ensure (job.claimedBy == some worker)
  ensure (job.invisibleUntil == leaseEnd now)
  ensure (job.scheduledFor == due)

def futureJobIsNotClaimed : Check σ Unit := do
  let now ← now
  let _ ← schedule "later" .null (now.after (days 1))
  claimNone (← drawWorker) now

def liveLeaseHidesJob : Check σ Unit := do
  let now ← now
  let _ ← schedule "once" .null now
  let first ← claim (← drawWorker) now
  let second ← claim (← drawWorker) now
  ensure first.isSome
  ensure second.isNone

def expiredLeaseIsReclaimable : Check σ Unit := do
  let now ← now
  let _ ← schedule "crash" .null now
  let first ← claimSome (← drawWorker) now
  let later := (leaseEnd now).after (seconds 1)
  let second ← claimSome (← drawWorker) later
  ensure (second.id == first.id)
  ensure (second.attempt == 2)

def ownerKeepsClaim : Check σ Unit := do
  let now ← now
  let worker ← drawWorker
  let _ ← schedule "long" .null now
  let job ← claimSome worker now
  ensure (← keep worker job (now.after (seconds 300)))
  claimNone (← drawWorker) ((leaseEnd now).after (seconds 1))

def otherWorkerCannotKeepClaim : Check σ Unit := do
  let now ← now
  let _ ← schedule "long" .null now
  let job ← claimSome (← drawWorker) now
  ensure (!(← keep (← drawWorker) job (leaseEnd now)))

def hijackedOwnerCannotFinalize : Check σ Unit := do
  let now ← now
  let owner ← drawWorker
  let thief ← drawWorker
  let _ ← schedule "contested" .null now
  let stale ← claimSome owner now
  let later := (leaseEnd now).after (seconds 1)
  let current ← claimSome thief later
  ensure (!(← keep owner stale (leaseEnd later)))
  complete owner stale later
  forget owner stale later
  ensure (← keep thief current (leaseEnd later))

def completedJobIsNotClaimedAgain : Check σ Unit := do
  let now ← now
  let worker ← drawWorker
  let _ ← schedule "done" .null now
  let job ← claimSome worker now
  complete worker job now
  claimNone worker (now.after (days 1))

def retriedJobIsClaimedWithNextAttempt : Check σ Unit := do
  let now ← now
  let worker ← drawWorker
  let payload : Payload := ⟨"flaky", .object [("n", .ofNat 1)]⟩
  let _ ← schedule payload.kind payload.data now
  let job ← claimSome worker now
  let due := now.after (seconds 10)
  retry worker job due
  claimNone worker now
  let retried ← claimSome worker due
  ensure (retried.id == job.id)
  ensure (retried.attempt == 2)
  ensure (retried.payload == payload)

def forgottenJobIsNotClaimedAgain : Check σ Unit := do
  let now ← now
  let worker ← drawWorker
  let _ ← schedule "X" (.string "X") (now.before (seconds 1))
  let job ← claimSome worker now
  ensure (job.attempt == 1)
  forget worker job now
  claimNone worker (now.after (days 1))

def pruneRemovesFinishedJobs : Check σ Unit := do
  let now ← now
  let worker ← drawWorker
  let _ ← schedule "ok" .null now
  let _ ← schedule "failed" .null now
  complete worker (← claimSome worker now) now
  forget worker (← claimSome worker now) now
  let cutoff := now.after (seconds 1)
  ensure (!(← prune cutoff))
  ensure (!(← prune cutoff))

def pruneKeepsPendingJobs : Check σ Unit := do
  let now ← now
  let worker ← drawWorker
  let _ ← schedule "pending" .null (now.before (days 30))
  let _ ← prune (now.after (days 1))
  let _ ← claimSome worker now

def scheduleMany (kind : String) (due : Instant) : (count first : Nat) → Check σ Unit
  | 0, _ => return ()
  | count + 1, first => do
    let _ ← schedule kind (.ofNat first) due
    scheduleMany kind due count (first + 1)

def completeMany (worker : WorkerId) (now : Instant) : Nat → Check σ Unit
  | 0 => return ()
  | count + 1 => do
    complete worker (← claimSome worker now) now
    completeMany worker now count

/-- Prunes until nothing more is reported, which has to happen within `rounds` full rounds. -/
def pruneAll (cutoff : Instant) : (rounds : Nat) → Check σ Unit
  | 0 => do ensure (!(← prune cutoff))
  | rounds + 1 => do if ← prune cutoff then pruneAll cutoff rounds

def backlogSize : Nat := 250

def pruneDrainsLargeBacklog : Check σ Unit := do
  let now ← now
  let worker ← drawWorker
  scheduleMany "bulk" now backlogSize 0
  completeMany worker now backlogSize
  let cutoff := now.after (seconds 1)
  pruneAll cutoff backlogSize
  ensure (!(← prune cutoff))

structure Racer where
  worker : WorkerId
  claimed : List Uuid := []
  running : Bool := true

def race (now : Instant) : List Nat → List Racer → Check σ (List Racer)
  | [], racers => return racers
  | turn :: turns, racers => do
    match racers[turn]? with
    | some racer =>
      if racer.running then
        match ← claim racer.worker now with
        | some job =>
          race now turns (racers.set turn { racer with claimed := racer.claimed ++ [job.id] })
        | none => race now turns (racers.set turn { racer with running := false })
      else race now turns racers
    | none => race now turns racers

def raceSize : Nat := 40
def racerCount : Nat := 8

/-- A turn for every racer, over and over, until all jobs must have been claimed. -/
def lastTurns : List Nat := (List.replicate (raceSize + 1) (List.range racerCount)).flatten

def drawRacers : Nat → Check σ (List Racer)
  | 0 => return []
  | n + 1 => return { worker := ← drawWorker } :: (← drawRacers n)

def concurrentClaimsAreExclusive : Check σ Unit := do
  let now ← now
  scheduleMany "race" now raceSize 0
  let racers ← race now ((← read).turns ++ lastTurns) (← drawRacers racerCount)
  ensure (racers.all fun r => !r.running)
  let seen := racers.flatMap Racer.claimed
  ensure (decide seen.Nodup)
  ensure (seen.length == raceSize)

def checks : List (String × Check σ Unit) := [
  ("empty_storage_has_nothing_to_claim", emptyStoreHasNothingToClaim),
  ("due_job_is_claimed", dueJobIsClaimed),
  ("future_job_is_not_claimed", futureJobIsNotClaimed),
  ("live_lease_hides_job", liveLeaseHidesJob),
  ("expired_lease_is_reclaimable", expiredLeaseIsReclaimable),
  ("owner_keeps_claim", ownerKeepsClaim),
  ("other_worker_cannot_keep_claim", otherWorkerCannotKeepClaim),
  ("hijacked_owner_cannot_finalize", hijackedOwnerCannotFinalize),
  ("completed_job_is_not_claimed_again", completedJobIsNotClaimedAgain),
  ("retried_job_is_claimed_with_next_attempt", retriedJobIsClaimedWithNextAttempt),
  ("forgotten_job_is_not_claimed_again", forgottenJobIsNotClaimedAgain),
  ("prune_removes_finished_jobs", pruneRemovesFinishedJobs),
  ("prune_keeps_pending_jobs", pruneKeepsPendingJobs),
  ("prune_drains_large_backlog", pruneDrainsLargeBacklog),
  ("concurrent_claims_are_exclusive", concurrentClaimsAreExclusive)]

def passesAll (setting : Setting σ) (empty : σ) : Bool :=
  checks.all fun (_, check) => check.passes setting empty

end DelayedJobs.Conformance
