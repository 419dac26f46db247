import DelayedJobs.Job.Basic

/-!
The jobs table: its columns, its rows, and the values that stand in them and in statements.
-/

namespace DelayedJobs

inductive Column where
  | jobId
  | kind
  | payload
  | scheduledFor
  | invisibleUntil
  | attempt
  | claimedBy
  | status
deriving DecidableEq

namespace Column

def name : Column → String
  | jobId => "job_id"
  | kind => "kind"
  | payload => "payload"
  | scheduledFor => "scheduled_for"
  | invisibleUntil => "invisible_until"
  | attempt => "attempt"
  | claimedBy => "claimed_by"
  | status => "status"

def declaration : Column → String
  | jobId => "UUID PRIMARY KEY"
  | kind => "TEXT NOT NULL"
  | payload => "JSONB NOT NULL"
  | scheduledFor | invisibleUntil => "TIMESTAMPTZ NOT NULL"
  | attempt => "INTEGER NOT NULL DEFAULT 0"
  | claimedBy => "UUID"
  | status => "TEXT NOT NULL DEFAULT 'ready'"

def all : List Column :=
  [jobId, kind, payload, scheduledFor, invisibleUntil, attempt, claimedBy, status]

end Column

inductive SqlValue where
  | null
  | uuid (value : Uuid)
  | text (value : String)
  | json (value : Json)
  | time (value : Instant)
  | number (value : Int)
deriving BEq, Inhabited

namespace SqlValue

/-- Equality in a condition: `NULL` is equal to nothing. -/
def equals : SqlValue → SqlValue → Bool
  | uuid a, uuid b => a == b
  | text a, text b => a == b
  | time a, time b => a == b
  | number a, number b => a == b
  | _, _ => false

def before : SqlValue → SqlValue → Bool
  | time a, time b => decide (a < b)
  | number a, number b => decide (a < b)
  | _, _ => false

/-- An instant travels in whole microseconds counted from the year 2000. -/
def onWire : SqlValue → SqlValue
  | time t => time t.wholeMicros
  | v => v

end SqlValue

structure JobRow where
  jobId : Uuid
  kind : String
  payload : Json
  scheduledFor : Instant
  invisibleUntil : Instant
  attempt : Int
  claimedBy : Option Uuid
  status : String
deriving BEq, Inhabited

namespace JobRow

def get (r : JobRow) : Column → SqlValue
  | .jobId => .uuid r.jobId
  | .kind => .text r.kind
  | .payload => .json r.payload
  | .scheduledFor => .time r.scheduledFor
  | .invisibleUntil => .time r.invisibleUntil
  | .attempt => .number r.attempt
  | .claimedBy => r.claimedBy.elim .null .uuid
  | .status => .text r.status

def set? (r : JobRow) : Column → SqlValue → Option JobRow
  | .jobId, .uuid u => some { r with jobId := u }
  | .kind, .text s => some { r with kind := s }
  | .payload, .json j => some { r with payload := j }
  | .scheduledFor, .time t => some { r with scheduledFor := t }
  | .invisibleUntil, .time t => some { r with invisibleUntil := t }
  | .attempt, .number n => some { r with attempt := n }
  | .claimedBy, .uuid u => some { r with claimedBy := some u }
  | .claimedBy, .null => some { r with claimedBy := none }
  | .status, .text s => some { r with status := s }
  | _, _ => none

def blank : JobRow where
  jobId := .nil
  kind := ""
  payload := .null
  scheduledFor := .epoch
  invisibleUntil := .epoch
  attempt := 0
  claimedBy := none
  status := JobStatus.ready.name

/-- The job of a row. A status that is none counts as claimed, and a negative attempt as zero. -/
def toJob (r : JobRow) : Job where
  id := r.jobId
  payload := ⟨r.kind, r.payload⟩
  scheduledFor := r.scheduledFor
  invisibleUntil := r.invisibleUntil
  attempt := .ofNat r.attempt.toNat
  claimedBy := r.claimedBy.map WorkerId.mk
  status := (JobStatus.ofName? r.status).getD .claimed

def ofJob (job : Job) : JobRow where
  jobId := job.id
  kind := job.payload.kind
  payload := job.payload.data
  scheduledFor := job.scheduledFor
  invisibleUntil := job.invisibleUntil
  attempt := job.attempt.toNat
  claimedBy := job.claimedBy.map WorkerId.id
  status := job.status.name

theorem toJob_ofJob (job : Job) : (ofJob job).toJob = job := by
  cases job
  simp [ofJob, toJob, JobStatus.ofName?_name, Function.comp_def]

def onWire (r : JobRow) : JobRow :=
  { r with
    scheduledFor := r.scheduledFor.wholeMicros
    invisibleUntil := r.invisibleUntil.wholeMicros }

end JobRow
end DelayedJobs
