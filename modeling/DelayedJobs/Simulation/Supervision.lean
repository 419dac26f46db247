import DelayedJobs.Scheduler.Cleaner
import DelayedJobs.Scheduler.Supervisor

/-!
The supervision of a loop in virtual time, with runs whose lengths and endings are given and pauses
drawn from the middle of their range. The cleaner in virtual time, with prunes whose results are
given and pauses that are not spread.
-/

namespace DelayedJobs.Simulation

inductive RunScript where
  | ends (e : Supervisor.RunEnd)
  /-- Well, once the scheduler shuts down. -/
  | waits
deriving DecidableEq

structure Supervision where
  /-- Runs and their lengths; the last one is repeated. -/
  runs : List (RunScript × Nat)
  readyAt : Option Nat
  dropGateAt : Option Nat
  shutdownAt : Option Nat

structure SupervisionReport where
  returned : Bool
  starts : List Nat
  pauses : List (UInt32 × Nat)

namespace Supervision

structure State where
  phase : Supervisor.Phase := .gated
  now : Nat := 0
  starts : List Nat := []
  pauses : List (UInt32 × Nat) := []

def drawPause (failures : UInt32) : Duration :=
  .ofNanos (((Supervisor.shortestPause failures).nanos +
    (Supervisor.longestPause failures).nanos) / 2)

def isDown (s : Supervision) (now : Nat) : Bool := s.shutdownAt.any fun t => decide (t ≤ now)

def earliest? (times : List (Option Nat × Supervisor.Event)) : Option (Nat × Supervisor.Event) :=
  times.foldl (fun best (time, e) =>
    match time, best with
    | none, _ => best
    | some t, none => some (t, e)
    | some t, some (b, f) => if t < b then some (t, e) else some (b, f)) none

def next? (s : Supervision) (st : State) : Option (Nat × Supervisor.Event) :=
  match st.phase with
  | .returned => none
  | .gated =>
    earliest? [(s.shutdownAt, .cut), (s.readyAt, .gateOpened), (s.dropGateAt, .gateDropped)]
  | .checking _ => some (st.now, .go)
  | .running k =>
    match s.runs[st.starts.length - 1]?.or s.runs.getLast? with
    | some (.ends e, length) =>
      some (st.starts.getLastD 0 + length, .runEnded e (drawPause (k + 1)))
    | some (.waits, length) =>
      s.shutdownAt.map fun t =>
        (max t (st.starts.getLastD 0 + length), .runEnded .ok (drawPause (k + 1)))
    | none => none
  | .pausing _ wakeAt => earliest? [(s.shutdownAt, .cut), (some wakeAt, .wake)]

def step (s : Supervision) (st : State) (time : Nat) (e : Supervisor.Event) : State :=
  let now := max st.now time
  let phase := (Supervisor.step (s.isDown now) now st.phase e).getD .returned
  match st.phase, phase with
  | .checking _, .running _ => { st with phase, now, starts := st.starts ++ [now] }
  | .pausing k _, .checking _ =>
    { st with phase, now, pauses := st.pauses ++ [(k, (drawPause k).nanos)] }
  | _, _ => { st with phase, now }

def run (s : Supervision) : (fuel : Nat) → State → State
  | 0, st => st
  | fuel + 1, st =>
    match s.next? st with
    | some (time, e) => run s fuel (s.step st time e)
    | none => st

/-- Each run after the given ones is followed by a pause of more than half a second, so that the
shutdown bounds their number. -/
def report (s : Supervision) : SupervisionReport :=
  let rounds := s.runs.length + s.shutdownAt.getD 0 / 500000000 + 3
  let st := s.run (4 * rounds) {}
  ⟨st.phase = .returned, st.starts, st.pauses⟩

end Supervision
structure PruneEntry where
  pause : Duration
  called : Instant
  cutoff : Instant

namespace Pruning

def entries (c : Poller.Context) : Cleaner.Phase → List Cleaner.Pruned → List PruneEntry
  | .idle streak, result :: rest =>
    let pause := Cleaner.pause streak c.settings.pruneInterval
    let later := { c with now := c.now + pause.nanos }
    let pruned := do
      let resting ← Cleaner.step c (.idle streak) (.rest pause.nanos)
      let pruning ← Cleaner.step later resting .wake
      let next ← Cleaner.step later pruning (.pruned result)
      return (pruning, next)
    match pruned with
    | some (.pruning _ cutoff, next) =>
      ⟨pause, later.instant, cutoff⟩ :: entries later next rest
    | _ => []
  | _, _ => []

def report (settings : Settings) (clock : Clock) (results : List Cleaner.Pruned) :
    List PruneEntry :=
  entries { settings, clock, shutdown := false, now := 0 } (.idle 0) results

end Pruning

end DelayedJobs.Simulation
