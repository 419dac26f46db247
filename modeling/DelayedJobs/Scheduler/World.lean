import DelayedJobs.Scheduler.Crew
import DelayedJobs.Store.Memory

/-!
A scheduler at work over one store in memory. Everything that can happen is an event, chosen by the
surroundings: how time passes, which task takes its next step, how a call to the store comes back,
how a handler ends. A step says which events are possible in a state and what they lead to.
-/

namespace DelayedJobs

/-- How a call to the store comes back: done by the store, failed or panicked without effect, or,
for a renewal, denied without asking the store. -/
inductive CallOutcome where
  | done
  | failed
  | denied
  | panicked
deriving DecidableEq

structure World extends Crew where
  store : MemoryStore := {}

namespace World

inductive WorkerEvent where
  | supervisor (e : Supervisor.Event)
  | go
  | claimReturns (o : CallOutcome)
  | wake
  | cut
  | handlerEnds (r : Poller.HandlerResult)
  | finish
  | leaseWakes
  | renewalReturns (o : CallOutcome)
  | leaseFinishes
  | conclude
  | finalizeReturns (o : CallOutcome)
deriving DecidableEq

inductive Event where
  /-- Time passes up to that many nanoseconds after the start. -/
  | advance (time : Nat)
  | worker (i : Nat) (e : WorkerEvent)
  | cleaner (e : Supervised.Event Cleaner.Event)
  | outside (r : Store.Request)
  | drop
  | shutdown
  | joined
  | close
  | closed

def start (raw : Settings) (clock : Clock) (ids : Nat → WorkerId) : World where
  toCrew := Crew.start raw clock ids

def claimReturns (store : MemoryStore) (worker : WorkerId) (now until_ : Instant) :
    CallOutcome → Poller.Claim × MemoryStore
  | .done =>
    match store.claim worker now until_ with
    | (some job, store) => (.job job, store)
    | (none, store) => (.nothing, store)
  | .denied => (.nothing, store)
  | .failed => (.failed, store)
  | .panicked => (.panicked, store)

def renewalReturns (store : MemoryStore) (worker : WorkerId) (id : Uuid) (until_ : Instant) :
    CallOutcome → Lease.Renewal × MemoryStore
  | .done =>
    match store.keep worker id until_ with
    | (true, store) => (.kept, store)
    | (false, store) => (.lost, store)
  | .denied => (.lost, store)
  | .failed => (.failed, store)
  | .panicked => (.panicked, store)

def finalizeReturns (store : MemoryStore) (worker : WorkerId) (job : Job)
    (call : Poller.Finalization) : CallOutcome → Poller.Finalized × MemoryStore
  | .done => (.done, (store.apply (call.request worker job)).2)
  | .denied | .failed => (.failed, store)
  | .panicked => (.panicked, store)

def loopEvent? (store : MemoryStore) (worker : Worker) :
    WorkerEvent → Option (Poller.Event × MemoryStore)
  | .supervisor _ => none
  | .go => some (.go, store)
  | .wake => some (.wake, store)
  | .cut => some (.cut, store)
  | .handlerEnds r => some (.handlerEnded r, store)
  | .finish => some (.finish, store)
  | .leaseWakes => some (.lease .wake, store)
  | .leaseFinishes => some (.lease .finish, store)
  | .conclude => some (.conclude, store)
  | .claimReturns o =>
    match worker.loop with
    | .claiming now until_ =>
      let (claim, store) := claimReturns store worker.id now until_ o
      some (.claimed claim, store)
    | _ => none
  | .renewalReturns o =>
    match worker.loop with
    | .running { job, lease := .renewing _ until_, .. } =>
      let (renewal, store) := renewalReturns store worker.id job.id until_ o
      some (.lease (.answer renewal), store)
    | _ => none
  | .finalizeReturns o =>
    match worker.loop with
    | .finalizing job call =>
      let (finalized, store) := finalizeReturns store worker.id job call o
      some (.finalized finalized, store)
    | _ => none

def crewEvent? (w : World) : Event → Option (Crew.Event × MemoryStore)
  | .advance time => some (.advance time, w.store)
  | .worker i (.supervisor e) => some (.worker i (.supervisor e), w.store)
  | .worker i e => do
    let (event, store) ← loopEvent? w.store (← w.workers[i]?) e
    return (.worker i (.loop event), store)
  | .cleaner e => some (.cleaner e, w.store)
  | .outside _ => none
  | .drop => some (.drop, w.store)
  | .shutdown => some (.shutdown, w.store)
  | .joined => some (.joined, w.store)
  | .close => some (.close, w.store)
  | .closed => some (.closed, w.store)

def step (w : World) : Event → Option World
  | .outside r => some { w with store := (w.store.apply r).2 }
  | e => do
    let (event, store) ← w.crewEvent? e
    let crew ← w.toCrew.step event
    return { toCrew := crew, store }

def run? (w : World) : List Event → Option World
  | [] => some w
  | e :: rest => (w.step e).bind fun w => w.run? rest

end World
end DelayedJobs
