import DelayedJobs.Time.Duration

/-!
The supervision of a loop. It starts once the gate has opened, is started again after a pause when
it fails or panics, and is left alone once it has ended well. Shutdown ends the supervision as soon
as no run is under way.
-/

namespace DelayedJobs

namespace Supervisor

def mostFailures : Nat := 5

def shortestPause (failures : UInt32) : Duration :=
  .ofMillis (600 * min failures.toNat mostFailures)

def longestPause (failures : UInt32) : Duration :=
  .ofMillis (1000 * min failures.toNat mostFailures)

inductive Phase where
  | gated
  | checking (failures : UInt32)
  | running (failures : UInt32)
  | pausing (failures : UInt32) (wakeAt : Nat)
  | returned
deriving DecidableEq

def Phase.isRunning : Phase → Bool
  | running _ => true
  | _ => false

inductive RunEnd where
  | ok
  | failed
  | panicked
deriving DecidableEq

inductive Event where
  | gateOpened
  | gateDropped
  | go
  /-- A run ends; `pause` is drawn for the restart. -/
  | runEnded (e : RunEnd) (pause : Duration)
  | wake
  | cut
deriving DecidableEq

def step (shutdown : Bool) (now : Nat) : Phase → Event → Option Phase
  | .gated, .gateOpened => some (.checking 0)
  | .gated, .gateDropped => some .returned
  | .gated, .cut => if shutdown then some .returned else none
  | .checking k, .go => if shutdown then some .returned else some (.running k)
  | .running _, .runEnded .ok _ => some .returned
  | .running k, .runEnded _ pause =>
    if shortestPause (k + 1) ≤ pause ∧ pause ≤ longestPause (k + 1) then
      if shutdown then some .returned else some (.pausing (k + 1) (now + pause.nanos))
    else none
  | .pausing k wakeAt, .wake => if wakeAt ≤ now then some (.checking k) else none
  | .pausing _ _, .cut => if shutdown then some .returned else none
  | _, _ => none

end Supervisor
end DelayedJobs
