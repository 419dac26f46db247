import DelayedJobs.Json.Print
import DelayedJobs.Json.Record
import DelayedJobs.Table.Settings

/-!
Table settings as JSON. A timeout is a pair of seconds and nanoseconds.
-/

namespace DelayedJobs

open Json

namespace Duration

/-- Seconds, and nanoseconds that may run over into seconds. -/
structure Parts where
  seconds : Nat := 0
  nanos : Nat := 0

def Parts.duration? (p : Parts) : Option Duration :=
  let nanos := p.seconds * 1000000000 + p.nanos
  if nanos ≤ maxNanos then some (ofNanos nanos) else none

def parts : Record Parts where
  start := {}
  open_ := false
  fields := [
    { name := "secs",
      read := (Reader.natural Word.count64).map fun n p => { p with seconds := n } },
    { name := "nanos", read := (Reader.natural Word.count32).map fun n p => { p with nanos := n } }]

def partsJson (d : Duration) : Json :=
  .object [("secs", .ofNat d.seconds), ("nanos", .ofNat d.subsecond)]

end Duration

namespace TableSettings

def record : Record TableSettings where
  start := { connection := "" }
  fields := [
    { name := "connection_string"
      read := Reader.text.map fun t s => { s with connection := t } },
    { name := "schema"
      required := false
      read := (Reader.optional Reader.text).map fun t s => { s with schema := t } },
    { name := "max_connections"
      read := (Reader.natural Word.count32).map fun n s => { s with maxConnections := .ofNat n } },
    { name := "acquire_timeout"
      read := (Duration.parts.readAs Duration.Parts.duration?).map fun d s =>
        { s with acquireTimeout := d } },
    { name := "prune_batch"
      read := (Reader.natural Word.count32).map fun n s => { s with pruneBatch := .ofNat n } }]

def parse (s : String) : Except Fault TableSettings := record.read.run s

def toJson (s : TableSettings) : Json := .object [
  ("connection_string", .string s.connection),
  ("schema", s.schema.elim .null .string),
  ("max_connections", .ofNat s.maxConnections.toNat),
  ("acquire_timeout", s.acquireTimeout.partsJson),
  ("prune_batch", .ofNat s.pruneBatch.toNat)]

def print (s : TableSettings) : String := s.toJson.print

end TableSettings
end DelayedJobs
