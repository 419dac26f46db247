import DelayedJobs.Job.Basic

/-!
What is asked of a store and what it answers. The identifier of a new job is drawn by the caller.
Later operations pass the job as it was claimed; they count only for the worker that holds it.
-/

namespace DelayedJobs.Store

inductive Request where
  | schedule (id : Uuid) (payload : Payload) (due : Instant)
  /-- Takes the first job that is due at `now` and leases it until `until_`. -/
  | claim (worker : WorkerId) (now until_ : Instant)
  | keep (worker : WorkerId) (job : Job) (until_ : Instant)
  | complete (worker : WorkerId) (job : Job) (now : Instant)
  | retry (worker : WorkerId) (job : Job) (due : Instant)
  /-- Gives a job up for good. -/
  | forget (worker : WorkerId) (job : Job) (now : Instant)
  /-- Deletes some jobs that were finished before `cutoff` and says whether there may be more. -/
  | prune (cutoff : Instant)

inductive Answer where
  | scheduled (id : Uuid)
  | claimed (job : Option Job)
  | kept (held : Bool)
  | done
  | pruned (more : Bool)
deriving BEq, Inhabited

end DelayedJobs.Store

namespace DelayedJobs

structure Backend (σ : Type) where
  call : Store.Request → σ → Except StoreError Store.Answer × σ

end DelayedJobs
