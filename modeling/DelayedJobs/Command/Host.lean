import DelayedJobs.Registry
import DelayedJobs.Scheduler.Cleaner
import DelayedJobs.Scheduler.Poller
import DelayedJobs.Table.Session

/-!
Workers and a cleaner over a session, as the program runs them. Its handler takes note of a job and
is done at once; jobs of kinds that nobody named fail. When every task has to wait, the host looks
whether it has been interrupted, and otherwise waits with them.
-/

namespace DelayedJobs

/-- The outside of a command: the database, the identifiers it draws, the time it waits. -/
structure Surroundings (m : Type → Type) where
  serve : Statement → m Reply
  refusal : Option LinkError := none
  now : Instant
  draw : Nat → Uuid
  wait : Duration → m Unit
  interrupted : m Bool
  listenFault : Option String := none
  /-- How many waits and steps a host may take. -/
  patience : Nat

structure Host where
  settings : Settings
  clock : Clock
  registry : Option (Registry Unit)
  now : Nat := 0
  shutdown : Bool := false
  session : Session
  workers : List (WorkerId × Poller.Phase)
  cleaner : Cleaner.Phase := .idle 0

namespace Host

def registryOf (kinds : List String) : Option (Registry Unit) :=
  let kinds := (kinds.map fun k => String.ofList (Text.trim k.toList)).filter fun k => k != ""
  if kinds.isEmpty then none
  else some (kinds.foldl (fun r k => r.register k (.raw fun _ => ())) .empty)

def start (raw : Settings) (now : Instant) (kinds : List String) (draw : Nat → Uuid)
    (session : Session) : Host :=
  let settings := raw.clamped
  { settings
    clock := ⟨now⟩
    registry := registryOf kinds
    session
    workers := (List.range settings.workerCount.toNat).map fun i => (⟨draw i⟩, .checking) }

def context (h : Host) : Poller.Context where
  settings := h.settings
  clock := h.clock
  shutdown := h.shutdown
  now := h.now

def handle (h : Host) (payload : Payload) : Poller.HandlerResult :=
  match h.registry with
  | none => .ok
  | some registry =>
    match registry.handle payload with
    | .ok () => .ok
    | .error _ => .failed

variable {m : Type → Type} [Monad m]

def claimOf : Session.Result → Poller.Claim
  | .ok (.claimed (some job)) => .job job
  | .ok _ => .nothing
  | .error _ => .failed

def finalizedOf : Session.Result → Poller.Finalized
  | .ok _ => .done
  | .error _ => .failed

def prunedOf : Session.Result → Cleaner.Pruned
  | .ok (.pruned true) => .more
  | .ok _ => .done
  | .error _ => .failed

def call (e : Surroundings m) (h : Host) (r : Store.Request) : m (Session.Result × Host) := do
  let (result, session) ← h.session.perform e.serve (.request r)
  return (result, { h with session })

def workerEvent (e : Surroundings m) (h : Host) (worker : WorkerId) :
    Poller.Phase → m (Option Poller.Event × Host)
  | .checking => pure (some .go, h)
  | .claiming now until_ => do
    let (result, h) ← h.call e (.claim worker now until_)
    return (some (.claimed (claimOf result)), h)
  | .resting wakeAt =>
    pure (if h.shutdown then some .cut else if wakeAt ≤ h.now then some .wake else none, h)
  | .running run =>
    pure (some (if run.result.isNone then .handlerEnded (h.handle run.job.payload)
      else if !run.finished then .finish
      else if !run.lease.isEnded then .lease .finish
      else .conclude), h)
  | .finalizing job last => do
    let (result, h) ← h.call e (last.request worker job)
    return (some (.finalized (finalizedOf result)), h)
  | .stopped | .panicked => pure (none, h)

def goOn (e : Surroundings m) (worker : WorkerId) :
    (fuel : Nat) → Poller.Phase → Host → m (Poller.Phase × Host)
  | 0, phase, h => pure (phase, h)
  | fuel + 1, phase, h => do
    match ← h.workerEvent e worker phase with
    | (some event, h) =>
      match Poller.step h.context phase event with
      | some phase => goOn e worker fuel phase h
      | none => return (phase, h)
    | (none, h) => return (phase, h)

def goOnAll (e : Surroundings m) :
    List (WorkerId × Poller.Phase) → Host → m (List (WorkerId × Poller.Phase) × Host)
  | [], h => pure ([], h)
  | (worker, phase) :: rest, h => do
    let (phase, h) ← goOn e worker e.patience phase h
    let (rest, h) ← goOnAll e rest h
    return ((worker, phase) :: rest, h)

def cleanerEvent (e : Surroundings m) (h : Host) : m (Option Cleaner.Event × Host) :=
  match h.cleaner with
  | .idle streak =>
    pure (some (.rest (Cleaner.pause streak h.settings.pruneInterval).nanos), h)
  | .resting _ wakeAt =>
    pure (if h.shutdown then some .cut else if wakeAt ≤ h.now then some .wake else none, h)
  | .pruning _ cutoff => do
    let (result, h) ← h.call e (.prune cutoff)
    return (some (.pruned (prunedOf result)), h)
  | .stopped | .panicked => pure (none, h)

def cleanOn (e : Surroundings m) : (fuel : Nat) → Host → m Host
  | 0, h => pure h
  | fuel + 1, h => do
    match ← h.cleanerEvent e with
    | (some event, h) =>
      match Cleaner.step h.context h.cleaner event with
      | some cleaner => cleanOn e fuel { h with cleaner }
      | none => return h
    | (none, h) => return h

def settle (e : Surroundings m) (h : Host) : m Host := do
  let (workers, h) ← goOnAll e h.workers h
  cleanOn e e.patience { h with workers }

def restsUntil? : Poller.Phase → Option Nat
  | .resting wakeAt => some wakeAt
  | _ => none

def nextWake? (h : Host) : Option Nat :=
  let cleaner := match h.cleaner with
    | .resting _ wakeAt => [wakeAt]
    | _ => []
  (h.workers.filterMap (fun w => restsUntil? w.2) ++ cleaner).min?

def work (e : Surroundings m) : (fuel : Nat) → Host → m Host
  | 0, h => pure h
  | fuel + 1, h => do
    let h ← h.settle e
    if ← e.interrupted then settle e { h with shutdown := true }
    else
      match h.nextWake? with
      | some wakeAt => do
        e.wait (.ofNanos (wakeAt - h.now))
        work e fuel { h with now := max wakeAt h.now }
      | none => return h

end Host
end DelayedJobs
