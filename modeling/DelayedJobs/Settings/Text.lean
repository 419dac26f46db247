import DelayedJobs.Json.Print
import DelayedJobs.Json.Record
import DelayedJobs.Settings.Basic

/-!
Settings as JSON: durations in whole milliseconds, anything that is left out at its default.
-/

namespace DelayedJobs.Settings

open Json

def millisJson (d : Duration) : Json := .ofNat (min d.millis (Word.count64 - 1))

def millisReader : Reader Duration := (Reader.natural Word.count64).map Duration.ofMillis

def fields : List (RecordField Settings) := [
  { name := "worker_count"
    read := (Reader.natural Word.count64).map fun n s => { s with workerCount := .ofNat n } },
  { name := "poll_interval"
    read := millisReader.map fun d s => { s with pollInterval := d } },
  { name := "keep_alive_interval"
    read := millisReader.map fun d s => { s with keepAliveInterval := d } },
  { name := "keep_alive_period"
    read := millisReader.map fun d s => { s with keepAlivePeriod := d } },
  { name := "keep_alive_retry_interval"
    read := millisReader.map fun d s => { s with keepAliveRetryInterval := d } },
  { name := "retry_interval"
    read := millisReader.map fun d s => { s with retryInterval := d } },
  { name := "retry_factor"
    read := Reader.real.map fun x s => { s with retryFactor := x } },
  { name := "retry_limit"
    read := (Reader.natural Word.count32).map fun n s => { s with retryLimit := .ofNat n } },
  { name := "max_retry_interval"
    read := millisReader.map fun d s => { s with maxRetryInterval := d } },
  { name := "prune_interval"
    read := millisReader.map fun d s => { s with pruneInterval := d } },
  { name := "keep_finished"
    read := millisReader.map fun d s => { s with keepFinished := d } }
]

def record : Record Settings where
  start := {}
  defaults := true
  fields := fields.map fun f => { f with required := false }

def parse (s : String) : Except Fault Settings := record.read.run s

def members (s : Settings) : List (String × Json) := [
  ("worker_count", .ofNat s.workerCount.toNat),
  ("poll_interval", millisJson s.pollInterval),
  ("keep_alive_interval", millisJson s.keepAliveInterval),
  ("keep_alive_period", millisJson s.keepAlivePeriod),
  ("keep_alive_retry_interval", millisJson s.keepAliveRetryInterval),
  ("retry_interval", millisJson s.retryInterval),
  ("retry_factor", .number (.real s.retryFactor)),
  ("retry_limit", .ofNat s.retryLimit.toNat),
  ("max_retry_interval", millisJson s.maxRetryInterval),
  ("prune_interval", millisJson s.pruneInterval),
  ("keep_finished", millisJson s.keepFinished)]

def toJson (s : Settings) : Json := .object s.members

def print (s : Settings) : String := s.toJson.print

end DelayedJobs.Settings
