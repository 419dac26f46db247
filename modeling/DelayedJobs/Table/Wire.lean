import DelayedJobs.Job.Text
import DelayedJobs.Table.Reply
import DelayedJobs.Table.Statement

/-!
Statements and replies as JSON, one to a line, for a program that passes them on to a database. A
reply is an object with the number `affected`, with a `row`, or with an `error` of the database.
-/

namespace DelayedJobs

open Json

def SqlValue.toJson : SqlValue → Json
  | .null => .null
  | .uuid u => .string u.toString
  | .text s => .string s
  | .json v => v
  | .time t => (Timestamp.ofInstant t).toJson
  | .number n => .ofInt n

def Statement.toJson (s : TableSettings) (statement : Statement) : Json := .array [
  .string (statement.text s),
  .array ((statement.params s).map fun v => v.onWire.toJson)]

namespace JobRow

def record : Record JobRow where
  start := blank
  fields := [
    { name := "job_id", read := Uuid.reader.map fun u r => { r with jobId := u } },
    { name := "kind", read := Reader.text.map fun s r => { r with kind := s } },
    { name := "payload", read := Reader.value.map fun j r => { r with payload := j } },
    { name := "scheduled_for"
      read := Timestamp.reader.map fun t r => { r with scheduledFor := t.instant } },
    { name := "invisible_until"
      read := Timestamp.reader.map fun t r => { r with invisibleUntil := t.instant } },
    { name := "attempt"
      read := (Reader.natural Word.count31).map fun n r => { r with attempt := Int.ofNat n } },
    { name := "claimed_by"
      required := false
      read := (Reader.optional Uuid.reader).map fun u r => { r with claimedBy := u } },
    { name := "status", read := Reader.text.map fun s r => { r with status := s } }]

end JobRow

namespace Reply

structure Parts where
  affected : Nat := 0
  row : Option JobRow := none
  error : Option String := none

def record : Record Parts where
  start := {}
  fields := [
    { name := "affected"
      required := false
      read := (Reader.natural Word.count64).map fun n p => { p with affected := n } },
    { name := "row"
      required := false
      read := (Reader.optional JobRow.record.read).map fun r p => { p with row := r } },
    { name := "error"
      required := false
      read := (Reader.optional Reader.text).map fun t p => { p with error := t } }]

def ofParts (p : Parts) : Reply :=
  match p.error, p.row with
  | some text, _ => .failed (.other text)
  | none, some row => .done 1 [row]
  | none, none => .done p.affected []

/-- The reply in a line; a line that is none counts as a broken connection. -/
def ofLine (line : String) : Reply :=
  match record.read.run line with
  | .ok parts => ofParts parts
  | .error _ => .failed (.other ("unreadable reply: " ++ line))

end Reply
end DelayedJobs
