import DelayedJobs.Store.Basic

/-!
A store in memory: pending jobs, and an index of when each becomes claimable, in order, so that a
claim looks at the first entry only. Finished jobs leave at once and pruning finds nothing to do.
-/

namespace DelayedJobs

/-- An entry of the index: from when on a job may be claimed. -/
abbrev DueEntry := Instant × Uuid

namespace DueEntry

/-- Earlier first, and of two at one instant the smaller identifier. -/
def before (a b : DueEntry) : Bool := decide (a.1 < b.1) || (a.1 == b.1 && decide (a.2 < b.2))

def insert (e : DueEntry) : List DueEntry → List DueEntry
  | [] => [e]
  | d :: rest =>
    if before e d then e :: d :: rest else if e = d then d :: rest else d :: insert e rest

end DueEntry

structure MemoryStore where
  jobs : List Job := []
  queue : List DueEntry := []
deriving Inhabited

namespace MemoryStore

def get? (s : MemoryStore) (id : Uuid) : Option Job := s.jobs.find? fun j => j.id == id

def size (s : MemoryStore) : Nat := s.jobs.length

def update (s : MemoryStore) (job : Job) : MemoryStore :=
  { s with jobs := s.jobs.map fun j => if j.id = job.id then job else j }

def requeue (s : MemoryStore) (id : Uuid) (from_ to_ : Instant) : MemoryStore :=
  { s with queue := DueEntry.insert (to_, id) (s.queue.erase (from_, id)) }

def held? (s : MemoryStore) (worker : WorkerId) (id : Uuid) : Option Job :=
  (s.get? id).filter (·.isHeldBy worker)

def schedule (s : MemoryStore) (id : Uuid) (payload : Payload) (due : Instant) : MemoryStore where
  jobs := s.jobs.filter (fun j => j.id != id) ++ [Job.new id payload due]
  queue := DueEntry.insert (due, id) s.queue

def claim (s : MemoryStore) (worker : WorkerId) (now until_ : Instant) :
    Option Job × MemoryStore :=
  match s.queue with
  | [] => (none, s)
  | (due, id) :: _ =>
    if now < due then (none, s)
    else
      let s := s.requeue id due until_
      match s.get? id with
      | none => (none, { s with queue := s.queue.erase (until_, id) })
      | some job =>
        let claimed := { job with
          status := .claimed
          claimedBy := some worker
          invisibleUntil := until_
          attempt := job.attempt + 1 }
        (some claimed, s.update claimed)

def keep (s : MemoryStore) (worker : WorkerId) (id : Uuid) (until_ : Instant) :
    Bool × MemoryStore :=
  match s.held? worker id with
  | none => (false, s)
  | some job =>
    (true, (s.requeue id job.invisibleUntil until_).update { job with invisibleUntil := until_ })

def remove (s : MemoryStore) (worker : WorkerId) (id : Uuid) : MemoryStore :=
  match s.held? worker id with
  | none => s
  | some job =>
    { jobs := s.jobs.filter fun j => j.id != id
      queue := s.queue.erase (job.invisibleUntil, id) }

def retry (s : MemoryStore) (worker : WorkerId) (id : Uuid) (due : Instant) : MemoryStore :=
  match s.held? worker id with
  | none => s
  | some job =>
    (s.requeue id job.invisibleUntil due).update
      { job with status := .ready, claimedBy := none, invisibleUntil := due }

def apply (s : MemoryStore) : Store.Request → Store.Answer × MemoryStore
  | .schedule id payload due => (.scheduled id, s.schedule id payload due)
  | .claim worker now until_ =>
    let (job, s) := s.claim worker now until_
    (.claimed job, s)
  | .keep worker job until_ =>
    let (held, s) := s.keep worker job.id until_
    (.kept held, s)
  | .complete worker job _ => (.done, s.remove worker job.id)
  | .retry worker job due => (.done, s.retry worker job.id due)
  | .forget worker job _ => (.done, s.remove worker job.id)
  | .prune _ => (.pruned false, s)

def backend : Backend MemoryStore where
  call r s :=
    let (answer, s) := s.apply r
    (.ok answer, s)

def run (s : MemoryStore) : List Store.Request → List Store.Answer × MemoryStore
  | [] => ([], s)
  | r :: rest =>
    let (answer, s) := s.apply r
    let (answers, s) := s.run rest
    (answer :: answers, s)

end MemoryStore
end DelayedJobs
