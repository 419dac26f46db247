import DelayedJobs.Scheduler.Cleaner
import DelayedJobs.Scheduler.Supervisor

/-!
The tasks of a scheduler, from its start until the store is closed: workers and a cleaner, each a
loop under supervision. Shutdown cancels them all, waits for one after the other, and then closes
the store. What the store answers, how handlers end and which task goes on is up to the
surroundings.
-/

namespace DelayedJobs

structure LoopKind (Phase Event : Type) where
  fresh : Phase
  step : Poller.Context → Phase → Event → Option Phase
  ending? : Phase → Option Supervisor.RunEnd

def Poller.kind : LoopKind Phase Event where
  fresh := .checking
  step := step
  ending?
    | .stopped => some .ok
    | .panicked => some .panicked
    | _ => none

def Cleaner.kind : LoopKind Phase Event where
  fresh := .idle 0
  step := step
  ending?
    | .stopped => some .ok
    | .panicked => some .panicked
    | _ => none

structure Supervised (Phase : Type) where
  supervisor : Supervisor.Phase := .gated
  loop : Phase

namespace Supervised

inductive Event (LoopEvent : Type) where
  | supervisor (e : Supervisor.Event)
  | loop (e : LoopEvent)

variable {Phase LoopEvent : Type}

def mayDo (k : LoopKind Phase LoopEvent) (loop : Phase) : Supervisor.Event → Bool
  | .runEnded r _ => k.ending? loop == some r
  | _ => true

def loopAfter (k : LoopKind Phase LoopEvent) (loop : Phase) :
    Supervisor.Event → Supervisor.Phase → Phase
  | .go, .running _ => k.fresh
  | _, _ => loop

def step (k : LoopKind Phase LoopEvent) (c : Poller.Context) (t : Supervised Phase) :
    Event LoopEvent → Option (Supervised Phase)
  | .supervisor e =>
    if mayDo k t.loop e then
      (Supervisor.step c.shutdown c.now t.supervisor e).map fun supervisor =>
        { supervisor, loop := loopAfter k t.loop e supervisor }
    else none
  | .loop e =>
    if t.supervisor.isRunning then (k.step c t.loop e).map fun loop => { t with loop } else none

end Supervised

structure Worker extends Supervised Poller.Phase where
  id : WorkerId
  loop := .checking

inductive Closing where
  | open
  /-- It waits for the next task, after the first `seen` of them. -/
  | joining (seen : Nat)
  | closing
  | closed
deriving DecidableEq

structure Crew where
  settings : Settings
  clock : Clock
  now : Nat := 0
  shutdown : Bool := false
  workers : Array Worker := #[]
  cleaner : Supervised Cleaner.Phase := { loop := .idle 0 }
  closing : Closing := .open

namespace Crew

inductive Event where
  /-- Time passes up to that many nanoseconds after the start. -/
  | advance (time : Nat)
  | worker (i : Nat) (e : Supervised.Event Poller.Event)
  | cleaner (e : Supervised.Event Cleaner.Event)
  | drop
  | shutdown
  | joined
  | close
  | closed

def start (raw : Settings) (clock : Clock) (ids : Nat → WorkerId) : Crew :=
  let settings := raw.clamped
  { settings, clock,
    workers := Array.ofFn fun i : Fin settings.workerCount.toNat => { id := ids i } }

def context (c : Crew) : Poller.Context where
  settings := c.settings
  clock := c.clock
  shutdown := c.shutdown
  now := c.now

/-- Where the tasks stand, in the order in which shutdown waits for them. -/
def tasks (c : Crew) : Array Supervisor.Phase :=
  (c.workers.map fun worker => worker.supervisor).push c.cleaner.supervisor

def allReturned (c : Crew) : Bool := c.tasks.all (· == .returned)

def step (c : Crew) : Event → Option Crew
  | .advance time => if c.now ≤ time then some { c with now := time } else none
  | .worker i e =>
    match c.workers[i]? with
    | some worker => (worker.toSupervised.step Poller.kind c.context e).map fun task =>
      { c with workers := c.workers.setIfInBounds i { worker with toSupervised := task } }
    | none => none
  | .cleaner e => (c.cleaner.step Cleaner.kind c.context e).map fun cleaner => { c with cleaner }
  | .drop => some { c with shutdown := true }
  | .shutdown =>
    if c.closing = .open then some { c with shutdown := true, closing := .joining 0 } else none
  | .joined =>
    match c.closing with
    | .joining seen =>
      if c.tasks[seen]? = some .returned then some { c with closing := .joining (seen + 1) }
      else none
    | _ => none
  | .close =>
    if c.closing = .joining c.tasks.size then some { c with closing := .closing } else none
  | .closed => if c.closing = .closing then some { c with closing := .closed } else none

def run? (c : Crew) : List Event → Option Crew
  | [] => some c
  | e :: rest => (c.step e).bind fun c => c.run? rest

end Crew
end DelayedJobs
