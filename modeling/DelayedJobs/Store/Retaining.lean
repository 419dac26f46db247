import DelayedJobs.Store.Memory

/-!
A store that keeps finished jobs until they are pruned. A prune looks at the jobs that were
finished before its cutoff, deletes one batch of them, and reports more work after a full batch.
-/

namespace DelayedJobs

structure FinishedJob where
  job : Job
  finishedAt : Instant
deriving BEq, Inhabited

structure RetainingStore where
  pending : MemoryStore := {}
  finished : List FinishedJob := []
deriving Inhabited

namespace RetainingStore

def finish (s : RetainingStore) (worker : WorkerId) (id : Uuid) (status : JobStatus)
    (now : Instant) : RetainingStore :=
  match s.pending.held? worker id with
  | none => s
  | some job =>
    { pending := s.pending.remove worker id
      finished := s.finished ++ [⟨{ job with status := status }, now⟩] }

def prunable (s : RetainingStore) (cutoff : Instant) : List FinishedJob :=
  s.finished.filter fun f => decide (f.finishedAt < cutoff)

def prune (batch : Nat) (s : RetainingStore) (cutoff : Instant) : Bool × RetainingStore :=
  let old := s.prunable cutoff
  let recent := s.finished.filter fun f => !decide (f.finishedAt < cutoff)
  (decide (batch ≤ old.length), { s with finished := old.drop batch ++ recent })

def apply (batch : Nat) (s : RetainingStore) : Store.Request → Store.Answer × RetainingStore
  | .complete worker job now => (.done, s.finish worker job.id .completed now)
  | .forget worker job now => (.done, s.finish worker job.id .failed now)
  | .prune cutoff =>
    let (more, s) := s.prune batch cutoff
    (.pruned more, s)
  | r =>
    let (answer, pending) := s.pending.apply r
    (answer, { s with pending })

def backend (batch : Nat) : Backend RetainingStore where
  call r s :=
    let (answer, s) := s.apply batch r
    (.ok answer, s)

end RetainingStore
end DelayedJobs
