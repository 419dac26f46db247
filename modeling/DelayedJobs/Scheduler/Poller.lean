import DelayedJobs.Backoff
import DelayedJobs.Scheduler.Lease
import DelayedJobs.Store.Basic

/-!
One worker: it claims a due job, runs its handler while the lease is kept, and then completes,
retries or forgets the job, unless the lease was lost on the way. Between two jobs it rests only
when a claim found nothing.
-/

namespace DelayedJobs

namespace Poller

inductive HandlerResult where
  | ok
  | failed
  | panicked
deriving DecidableEq

structure Run where
  job : Job
  result : Option HandlerResult := none
  /-- Whether the worker has seen the handler end and asked the upkeep of the lease to stop. -/
  finished : Bool := false
  lease : Lease.Phase

inductive Finalization where
  | complete (now : Instant)
  | retry (due : Instant)
  | forget (now : Instant)
deriving DecidableEq

inductive Phase where
  | checking
  | claiming (now until_ : Instant)
  | resting (wakeAt : Nat)
  | running (run : Run)
  | finalizing (job : Job) (call : Finalization)
  | stopped
  | panicked

inductive Claim where
  | job (job : Job)
  | nothing
  | failed
  | panicked

inductive Finalized where
  | done
  | failed
  | panicked
deriving DecidableEq

inductive Event where
  /-- Begins a claim, or stops if the scheduler is shutting down. -/
  | go
  | claimed (c : Claim)
  | wake
  | cut
  | handlerEnded (r : HandlerResult)
  /-- The worker sees that the handler has ended. -/
  | finish
  | lease (e : Lease.Event)
  /-- The worker sees that the upkeep of the lease has ended. -/
  | conclude
  | finalized (f : Finalized)

def finalization (s : Settings) (now : Instant) (job : Job) (success : Bool) : Finalization :=
  if success then .complete now
  else if job.attempt < s.retryLimit then .retry (now.after (s.retryDelay job.attempt.toNat))
  else .forget now

structure Context where
  settings : Settings
  clock : Clock
  shutdown : Bool
  now : Nat

namespace Context

def instant (c : Context) : Instant := c.clock.read (Lease.elapsed c.now)

end Context

def step (c : Context) : Phase → Event → Option Phase
  | .checking, .go =>
    if c.shutdown then some .stopped
    else some (.claiming c.instant (c.settings.leaseEnd c.instant))
  | .claiming _ _, .claimed (.job job) =>
    some (.running { job := job, lease := Lease.start c.settings c.now })
  | .claiming _ _, .claimed .panicked => some .panicked
  | .claiming _ _, .claimed _ =>
    if c.shutdown then some .stopped
    else some (.resting (c.now + c.settings.pollInterval.nanos))
  | .resting wakeAt, .wake => if wakeAt ≤ c.now then some .checking else none
  | .resting _, .cut => if c.shutdown then some .stopped else none
  | .running run, .handlerEnded r =>
    if run.result.isNone then some (.running { run with result := some r }) else none
  | .running run, .finish =>
    if run.result.isSome && !run.finished then some (.running { run with finished := true })
    else none
  | .running run, .lease e =>
    if e = .finish && !run.finished then none
    else (Lease.step c.settings c.clock c.now run.lease e).map fun l =>
      .running { run with lease := l }
  | .running run, .conclude =>
    if run.finished && run.lease.isEnded then
      if run.lease.hijacked then some .checking
      else some (.finalizing run.job
        (finalization c.settings c.instant run.job (run.result == some .ok)))
    else none
  | .finalizing _ _, .finalized .panicked => some .panicked
  | .finalizing _ _, .finalized _ => some .checking
  | _, _ => none

def Run.cancelled (run : Run) (shutdown : Bool) : Bool := shutdown || run.lease.hijacked

def Finalization.request (worker : WorkerId) (job : Job) : Finalization → Store.Request
  | complete now => .complete worker job now
  | retry due => .retry worker job due
  | forget now => .forget worker job now

end Poller
end DelayedJobs
