import DelayedJobs.Store.Memory

/-!
The plain store: pending jobs and nothing else. A claim looks at every job and takes the claimable
one that comes first. What the indexed store does is measured against it.
-/

namespace DelayedJobs

structure ScanStore where
  jobs : List Job := []
deriving Inhabited

namespace ScanStore

def get? (s : ScanStore) (id : Uuid) : Option Job := s.jobs.find? fun j => j.id == id

def size (s : ScanStore) : Nat := s.jobs.length

def key (job : Job) : DueEntry := (job.invisibleUntil, job.id)

def earlier (a b : Job) : Job := if DueEntry.before (key b) (key a) then b else a

def first? (s : ScanStore) (now : Instant) : Option Job :=
  match s.jobs.filter (·.isClaimable now) with
  | [] => none
  | job :: rest => some (rest.foldl earlier job)

def modify (s : ScanStore) (id : Uuid) (f : Job → Job) : ScanStore :=
  ⟨s.jobs.map fun j => if j.id = id then f j else j⟩

def holds (s : ScanStore) (worker : WorkerId) (id : Uuid) : Bool :=
  (s.get? id).any (·.isHeldBy worker)

def apply (s : ScanStore) : Store.Request → Store.Answer × ScanStore
  | .schedule id payload due =>
    (.scheduled id, ⟨s.jobs.filter (fun j => j.id != id) ++ [Job.new id payload due]⟩)
  | .claim worker now until_ =>
    match s.first? now with
    | none => (.claimed none, s)
    | some job =>
      let claimed := { job with
        status := .claimed
        claimedBy := some worker
        invisibleUntil := until_
        attempt := job.attempt + 1 }
      (.claimed (some claimed), s.modify job.id fun _ => claimed)
  | .keep worker job until_ =>
    if s.holds worker job.id then
      (.kept true, s.modify job.id fun j => { j with invisibleUntil := until_ })
    else (.kept false, s)
  | .complete worker job _ | .forget worker job _ =>
    if s.holds worker job.id then (.done, ⟨s.jobs.filter fun j => j.id != job.id⟩) else (.done, s)
  | .retry worker job due =>
    if s.holds worker job.id then
      (.done, s.modify job.id fun j =>
        { j with status := .ready, claimedBy := none, invisibleUntil := due })
    else (.done, s)
  | .prune _ => (.pruned false, s)

def run (s : ScanStore) : List Store.Request → List Store.Answer × ScanStore
  | [] => ([], s)
  | r :: rest =>
    let (answer, s) := s.apply r
    let (answers, s) := s.run rest
    (answer :: answers, s)

end ScanStore
end DelayedJobs
