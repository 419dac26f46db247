import DelayedJobs.Json.Read
import DelayedJobs.Store.Error
import DelayedJobs.Time.Instant
import DelayedJobs.Uuid

/-!
What a job asks for: a kind that selects its handler, and data. Types of jobs may fix a kind of
their own and say how their values become data. A store keeps jobs; one that is ready or claimed is
pending, and it may be claimed once its `invisibleUntil` has come, which a claim moves to the end of
its lease and a retry to the next due time.
-/

namespace DelayedJobs

structure Payload where
  kind : String
  data : Json
deriving BEq, Inhabited

/-- A type of jobs with one kind. Writing may fail with a reason, reading with a fault. -/
class JobKind (α : Type) where
  kind : String
  encode : α → Except String Json
  decode : Json → Except Json.Fault α

namespace Payload

def ofJob {α : Type} [JobKind α] (job : α) : Except StoreError Payload :=
  match JobKind.encode job with
  | .ok data => .ok ⟨JobKind.kind α, data⟩
  | .error reason => .error (.serialization reason)

def toJob (α : Type) [JobKind α] (p : Payload) : Except Json.Fault α := JobKind.decode p.data

end Payload

structure WorkerId where
  id : Uuid
deriving DecidableEq, Inhabited

inductive JobStatus where
  | ready
  | claimed
  | completed
  | failed
deriving DecidableEq, Inhabited

namespace JobStatus

def name : JobStatus → String
  | ready => "ready"
  | claimed => "claimed"
  | completed => "completed"
  | failed => "failed"

def ofName? (s : String) : Option JobStatus :=
  if s = "ready" then some ready
  else if s = "claimed" then some claimed
  else if s = "completed" then some completed
  else if s = "failed" then some failed
  else none

theorem ofName?_name (s : JobStatus) : ofName? s.name = some s := by
  cases s <;> simp [ofName?, name]

def unknownMessage (s : String) : String := "unknown job status: " ++ s

def isTerminal : JobStatus → Bool
  | ready | claimed => false
  | completed | failed => true

end JobStatus

structure Job where
  id : Uuid
  payload : Payload
  scheduledFor : Instant
  invisibleUntil : Instant
  /-- How often the job has been claimed; the counter starts again after its last word. -/
  attempt : UInt32
  claimedBy : Option WorkerId
  status : JobStatus
deriving BEq, Inhabited

namespace Job

def new (id : Uuid) (payload : Payload) (due : Instant) : Job where
  id := id
  payload := payload
  scheduledFor := due
  invisibleUntil := due
  attempt := 0
  claimedBy := none
  status := .ready

def isClaimable (job : Job) (now : Instant) : Bool :=
  (job.status == .ready || job.status == .claimed) && decide (job.invisibleUntil ≤ now)

def isHeldBy (job : Job) (worker : WorkerId) : Bool :=
  job.status == .claimed && job.claimedBy == some worker

end Job

end DelayedJobs
