import DelayedJobs.Scheduler.Lease
import DelayedJobs.Store.Memory

/-!
The upkeep of one lease in virtual time, with renewals whose outcomes and durations are given.
Renewals beyond those are done by the store at once.
-/

namespace DelayedJobs.Simulation

structure ScriptedRenewal where
  /-- The outcome; a renewal that is kept is left to the store. -/
  outcome : Lease.Renewal := .kept
  latency : Nat := 0

structure LeaseTrial where
  settings : Settings
  clock : Clock
  worker : WorkerId
  job : Job
  renewals : List ScriptedRenewal
  finishAt : Option Nat

/-- A renewal that has been begun; without a result if it was abandoned or panicked. -/
structure RenewalEntry where
  since : Nat
  until_ : Instant
  result : Option Lease.Renewal

structure LeaseReport where
  ending : Lease.Ending
  endedAt : Nat
  renewals : List RenewalEntry

namespace LeaseTrial

structure State where
  phase : Lease.Phase
  renewals : List ScriptedRenewal
  store : MemoryStore
  entries : List RenewalEntry := []

def answer (t : LeaseTrial) (s : State) (r : ScriptedRenewal) (until_ : Instant) :
    Lease.Renewal × MemoryStore :=
  match r.outcome with
  | .kept =>
    match s.store.keep t.worker t.job.id until_ with
    | (true, store) => (.kept, store)
    | (false, store) => (.lost, store)
  | outcome => (outcome, s.store)

def finishedBy (t : LeaseTrial) (time : Nat) : Bool := t.finishAt.any fun f => decide (f ≤ time)

def stepAt (t : LeaseTrial) (s : State) (time : Nat) (e : Lease.Event) : State :=
  { s with phase := (Lease.step t.settings t.clock time s.phase e).getD s.phase }

def run (t : LeaseTrial) : (fuel : Nat) → State → Option LeaseReport
  | 0, _ => none
  | fuel + 1, s =>
    match s.phase with
    | .ended ending => some ⟨ending, t.finishAt.getD 0, s.entries⟩
    | .resting wakeAt =>
      if t.finishedBy wakeAt then run t fuel (t.stepAt s (t.finishAt.getD 0) .finish)
      else run t fuel (t.stepAt s wakeAt .wake)
    | .renewing since until_ =>
      let r := s.renewals.headD {}
      let time := since + r.latency
      let entry (result : Option Lease.Renewal) : RenewalEntry := ⟨since, until_, result⟩
      if t.finishedBy time then
        let s := t.stepAt s (t.finishAt.getD 0) .finish
        run t fuel { s with entries := s.entries ++ [entry none] }
      else
        let (renewal, store) := t.answer s r until_
        let s := t.stepAt s time (.answer renewal)
        let s := { s with
          renewals := s.renewals.tail
          store := store
          entries := s.entries ++
            [entry (if renewal = Lease.Renewal.panicked then none else some renewal)] }
        match s.phase, t.finishAt with
        | .ended ending, none => some ⟨ending, time, s.entries⟩
        | _, _ => run t fuel s

/-- Renewals follow each other by a tenth of a second at least, or use up the given ones. -/
def report (t : LeaseTrial) (store : MemoryStore) : Option LeaseReport :=
  let rounds := t.renewals.length + t.finishAt.getD 0 / 100000000 + 2
  t.run (2 * rounds + 2)
    { phase := Lease.start t.settings 0, renewals := t.renewals, store := store }

end LeaseTrial
end DelayedJobs.Simulation
