import DelayedJobs.Scheduler.Cleaner
import DelayedJobs.Table.Meaning
import DelayedJobs.Table.Reply
import DelayedJobs.Table.Statement

/-!
Workers and cleaners at one table, on one clock and with the same settings. The clock may be set at
any time. A call sends a statement; the database serves the statements in flight one at a time,
whenever it likes, and keeps instants exactly. A reply may be lost, and a call that nobody waits for
any longer may still be served.
-/

namespace DelayedJobs
open Store (Request Answer)

def Store.Request.serve (r : Request) (order : RowOrder) (pruneBatch : Nat) (rows : List JobRow) :
    DelayedJobs.Reply × List JobRow :=
  match r.query.run? order (r.params pruneBatch) rows with
  | some (answer, rows) => (.done answer.affected answer.returned, rows)
  | none => (.failed (.other "the statement has failed"), rows)

/-- A call that was begun when the clock showed `reading`, and the reply once it was served. -/
structure Call where
  reading : Instant
  request : Request
  reply : Option Reply := none

inductive CallResult where
  | answered (a : Answer)
  | failed
  | panicked

namespace CallResult

def claim : CallResult → Poller.Claim
  | answered (.claimed (some job)) => .job job
  | answered _ => .nothing
  | failed => .failed
  | panicked => .panicked

def renewal : CallResult → Lease.Renewal
  | answered (.kept true) => .kept
  | answered _ => .lost
  | failed => .failed
  | panicked => .panicked

def finalized : CallResult → Poller.Finalized
  | answered _ => .done
  | failed => .failed
  | panicked => .panicked

def pruned : CallResult → Cleaner.Pruned
  | answered (.pruned true) => .more
  | answered _ => .done
  | failed => .failed
  | panicked => .panicked

def ofReply (pruneBatch : Nat) (r : Request) : Reply → CallResult
  | .done affected rows => answered (r.answer pruneBatch affected rows)
  | .failed _ => failed

end CallResult

inductive Loop where
  | worker (id : WorkerId) (phase : Poller.Phase)
  | cleaner (phase : Cleaner.Phase)

namespace Loop

inductive Event where
  | worker (e : Poller.Event)
  | cleaner (e : Cleaner.Event)

def Event.isResult : Event → Bool
  | worker (.claimed _) | worker (.lease (.answer _)) | worker (.finalized _)
  | cleaner (.pruned _) => true
  | _ => false

def step (c : Poller.Context) : Loop → Event → Option Loop
  | worker id phase, .worker e => (Poller.step c phase e).map (worker id)
  | cleaner phase, .cleaner e => (Cleaner.step c phase e).map cleaner
  | _, _ => none

def request? : Loop → Option Request
  | worker id (.claiming now until_) => some (.claim id now until_)
  | worker id (.running { job, lease := .renewing _ until_, .. }) => some (.keep id job until_)
  | worker id (.finalizing job call) => some (call.request id job)
  | cleaner (.pruning _ cutoff) => some (.prune cutoff)
  | _ => none

def hears? : Request → CallResult → Option Event
  | .claim .., r => some (.worker (.claimed r.claim))
  | .keep .., r => some (.worker (.lease (.answer r.renewal)))
  | .complete .., r | .retry .., r | .forget .., r => some (.worker (.finalized r.finalized))
  | .prune _, r => some (.cleaner (.pruned r.pruned))
  | .schedule .., _ => none

def restart? : Loop → Option Loop
  | worker id .stopped | worker id .panicked => some (worker id .checking)
  | cleaner .stopped | cleaner .panicked => some (cleaner (.idle 0))
  | _ => none

end Loop

structure Party where
  loop : Loop
  call : Option Call := none
  shutdown : Bool := false

structure Deployment where
  settings : Settings
  clock : Clock
  pruneBatch : Nat
  now : Nat := 0
  rows : List JobRow := []
  parties : List Party := []
  /-- Calls that nobody waits for any longer, and that were not served. -/
  strays : List Call := []

namespace Deployment

/-- How the wait for a call ends: with the reply, or with an error or a panic before it
was heard. -/
inductive Return where
  | reply
  | failed
  | panicked

inductive Event where
  /-- Time passes up to that many nanoseconds after the start, and the clock may be set. -/
  | advance (time : Nat) (clock : Clock)
  | schedule (order : RowOrder) (id : Uuid) (payload : Payload) (due : Instant)
  | shutdown (i : Nat)
  | restart (i : Nat)
  | act (i : Nat) (e : Loop.Event)
  | serve (i : Nat) (order : RowOrder)
  | serveStray (k : Nat) (order : RowOrder)
  | return_ (i : Nat) (r : Return)

structure Entry where
  reading : Instant
  request : Request
  before : List JobRow
  after : List JobRow

/-- An empty table with some workers and cleaners on settings that are brought into safe ranges. -/
def start (raw : Settings) (clock : Clock) (pruneBatch : Nat) (workers : List WorkerId)
    (cleaners : Nat) : Deployment where
  settings := raw.clamped
  clock := clock
  pruneBatch := pruneBatch
  parties := workers.map (fun id => { loop := .worker id .checking }) ++
    List.replicate cleaners { loop := .cleaner (.idle 0) }

def instant (f : Deployment) : Instant := f.clock.read (Lease.elapsed f.now)

def context (f : Deployment) (p : Party) : Poller.Context where
  settings := f.settings
  clock := f.clock
  shutdown := p.shutdown
  now := f.now

def setParty (f : Deployment) (i : Nat) (p : Party) : Deployment :=
  { f with parties := f.parties.set i p }

/-- A loop has gone on. It begins a call, waits on for the one it has begun, or waits no longer. -/
def move (f : Deployment) (i : Nat) (p : Party) (loop : Loop) : Deployment :=
  match p.call, loop.request? with
  | none, request =>
    f.setParty i
      { p with loop, call := request.map fun r => { reading := f.instant, request := r } }
  | some _, some _ => f.setParty i { p with loop }
  | some c, none =>
    { f.setParty i { p with loop, call := none } with
      strays := f.strays ++ if c.reply.isNone then [c] else [] }

def served (f : Deployment) (order : RowOrder) (c : Call) : Reply × Entry :=
  let (reply, rows) := c.request.serve order f.pruneBatch f.rows
  (reply, { reading := c.reading, request := c.request, before := f.rows, after := rows })

def Return.result? (pruneBatch : Nat) (c : Call) : Return → Option CallResult
  | reply => c.reply.map (CallResult.ofReply pruneBatch c.request)
  | failed => some .failed
  | panicked => some .panicked

/-- The statement that is served in a step, if one is, and the state after it. -/
def step (f : Deployment) : Event → Option (Option Entry × Deployment)
  | .advance time clock => if f.now ≤ time then some (none, { f with now := time, clock }) else none
  | .schedule order id payload due =>
    let (_, entry) := f.served order { reading := f.instant, request := .schedule id payload due }
    some (some entry, { f with rows := entry.after })
  | .shutdown i => do
    let p ← f.parties[i]?
    return (none, f.setParty i { p with shutdown := true })
  | .restart i => do
    let p ← f.parties[i]?
    return (none, f.setParty i { p with loop := ← p.loop.restart? })
  | .act i e => if e.isResult then none else do
    let p ← f.parties[i]?
    return (none, f.move i p (← p.loop.step (f.context p) e))
  | .serve i order => do
    let p ← f.parties[i]?
    let c ← p.call.filter fun c => c.reply.isNone
    let (reply, entry) := f.served order c
    return (some entry,
      { f.setParty i { p with call := some { c with reply := reply } } with rows := entry.after })
  | .serveStray k order => do
    let c ← f.strays[k]?
    let (_, entry) := f.served order c
    return (some entry, { f with rows := entry.after, strays := f.strays.eraseIdx k })
  | .return_ i r => do
    let p ← f.parties[i]?
    let c ← p.call
    let e ← Loop.hears? c.request (← r.result? f.pruneBatch c)
    return (none, f.move i p (← p.loop.step (f.context p) e))

/-- The statements that are served in a list of events, the latest first, and the state they lead
to, if each event is possible. -/
def run? (f : Deployment) : List Event → Option (List Entry × Deployment)
  | [] => some ([], f)
  | e :: rest => do
    let (entry, f) ← f.step e
    let (log, f) ← f.run? rest
    return (log ++ entry.toList, f)

end Deployment
end DelayedJobs
