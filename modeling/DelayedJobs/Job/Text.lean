import DelayedJobs.Job.Basic
import DelayedJobs.Json.Print
import DelayedJobs.Json.Record
import DelayedJobs.Time.Timestamp

/-!
Jobs and payloads as JSON.
-/

namespace DelayedJobs

open Json

namespace Payload

def record : Record Payload where
  start := default
  fields := [
    { name := "kind", read := Reader.text.map fun k p => { p with kind := k } },
    { name := "data", read := Reader.value.map fun d p => { p with data := d } }]

def parse (s : String) : Except Fault Payload := record.read.run s

def toJson (p : Payload) : Json := .object [("kind", .string p.kind), ("data", p.data)]

def print (p : Payload) : String := p.toJson.print

end Payload

def Uuid.reader : Reader Uuid := .textOf Uuid.parse?
def Timestamp.reader : Reader Timestamp := .textOf Timestamp.parse?
def Timestamp.toJson (t : Timestamp) : Json := .string (String.ofList t.toText)

structure JobText where
  id : Uuid
  payload : Payload
  scheduledFor : Timestamp
  invisibleUntil : Timestamp
  attempt : UInt32
  claimedBy : Option WorkerId
  status : JobStatus
deriving Inhabited

namespace JobText

def ofJob (j : Job) : JobText where
  id := j.id
  payload := j.payload
  scheduledFor := .ofInstant j.scheduledFor
  invisibleUntil := .ofInstant j.invisibleUntil
  attempt := j.attempt
  claimedBy := j.claimedBy
  status := j.status

def job (t : JobText) : Job where
  id := t.id
  payload := t.payload
  scheduledFor := t.scheduledFor.instant
  invisibleUntil := t.invisibleUntil.instant
  attempt := t.attempt
  claimedBy := t.claimedBy
  status := t.status

theorem job_ofJob (j : Job) : (ofJob j).job = j := rfl

def record : Record JobText where
  start := default
  fields := [
    { name := "id", read := Uuid.reader.map fun u j => { j with id := u } },
    { name := "payload", read := Payload.record.read.map fun p j => { j with payload := p } },
    { name := "scheduled_for",
      read := Timestamp.reader.map fun t j => { j with scheduledFor := t } },
    { name := "invisible_until"
      read := Timestamp.reader.map fun t j => { j with invisibleUntil := t } },
    { name := "attempt"
      read := (Reader.natural Word.count32).map fun n j => { j with attempt := .ofNat n } },
    { name := "claimed_by"
      required := false
      read := (Reader.optional Uuid.reader).map fun u j =>
        { j with claimedBy := u.map WorkerId.mk } },
    { name := "status"
      read := (Reader.choice JobStatus.ofName?).map fun s j => { j with status := s } }]

def parse (s : String) : Except Fault JobText := record.read.run s

def toJson (j : JobText) : Json := .object [
  ("id", .string j.id.toString),
  ("payload", j.payload.toJson),
  ("scheduled_for", j.scheduledFor.toJson),
  ("invisible_until", j.invisibleUntil.toJson),
  ("attempt", .ofNat j.attempt.toNat),
  ("claimed_by", j.claimedBy.elim .null fun w => .string w.id.toString),
  ("status", .string j.status.name)]

def print (j : JobText) : String := j.toJson.print

end JobText

namespace Job

def parse (s : String) : Except Fault Job := (JobText.parse s).map JobText.job

def print (j : Job) : String := (JobText.ofJob j).print

end Job
end DelayedJobs
