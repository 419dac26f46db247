import DelayedJobs.Registry
import DelayedJobs.Scheduler.World

/-!
Scenarios for a whole scheduler: how handlers behave, and what happens from outside at which time.
A rehearsal answers with the result of every action and a timeline for every kind of job.
-/

namespace DelayedJobs.Simulation

structure Reminder where
  user : String
  minutes : UInt32
deriving DecidableEq

namespace Reminder

def minutes? : Json → Option UInt32
  | .number (.int n) => if 0 ≤ n ∧ n < Word.count32 then some (.ofNat n.toNat) else none
  | _ => none

/-- Read from an object, whose other members do not count, or from a pair. -/
def ofJson? : Json → Option Reminder
  | .array [.string user, minutes] => (minutes? minutes).map fun m => ⟨user, m⟩
  | .object members =>
    match members.lookup "user", members.lookup "minutes" with
    | some (.string user), some minutes => (minutes? minutes).map fun m => ⟨user, m⟩
    | _, _ => none
  | _ => none

def toJson (r : Reminder) : Json :=
  .object [("minutes", .ofNat r.minutes.toNat), ("user", .string r.user)]

instance : JobKind Reminder where
  kind := "reminder"
  encode r := .ok r.toJson
  decode j := (ofJson? j).elim (.error .mismatched) .ok

end Reminder

structure PickyJob where
  refuses : Bool

instance : JobKind PickyJob where
  kind := "picky"
  encode j := if j.refuses then .error "picky job refused" else .ok (.string "fine")
  decode _ := .ok ⟨false⟩

structure HandlerScript where
  /-- Its length in nanoseconds. -/
  length : Nat := 0
  result : Poller.HandlerResult := .ok
  /-- How it ends, at once, when it is cancelled; without this it does not notice. -/
  onCancel : Option Poller.HandlerResult := none

inductive FaultName where
  | schedule | claim | keep | finalize | lose | keepPanic
deriving DecidableEq

structure Faults where
  active : List FaultName := []
  /-- How long a renewal takes, in nanoseconds. -/
  slowKeep : Nat := 0

namespace Faults

def has (f : Faults) (name : FaultName) : Bool := f.active.contains name

def switch (f : Faults) (name : FaultName) (on : Bool) : Faults :=
  { f with active := if on then name :: f.active else f.active.filter (· ≠ name) }

def keepOutcome (f : Faults) : CallOutcome :=
  if f.has .keep then .failed
  else if f.has .lose then .denied
  else if f.has .keepPanic then .panicked
  else .done

end Faults

inductive Action where
  | schedule (payload : Payload) (due : Instant)
  | scheduleIn (payload : Payload) (delay : Duration)
  | scheduleReminder (job : Reminder) (due : Instant)
  | schedulePicky (job : PickyJob) (due : Instant)
  | fault (name : FaultName) (on : Bool)
  | slowKeep (length : Nat)
  /-- A stranger claims the first pending job, whenever it is due. -/
  | steal (until_ : Instant)
  | thiefCompletes
  | thiefRetries (due : Instant)
  | inspect (kind : String)
  | wait
  | drop
  | shutdown

structure Scenario where
  settings : Settings
  clock : Clock
  /-- The runs of the handler of each kind, the last one repeated. -/
  handlers : List (String × List HandlerScript)
  /-- Whether only these kinds and reminders have a handler. -/
  registered : Bool := false
  /-- Actions and their times in nanoseconds. -/
  actions : List (Nat × Action)

structure HandlerEnd where
  result : Poller.HandlerResult
  onCancel : Bool := false

inductive Entry where
  | scheduled (due : Instant) (data : Json)
  | claimed (now until_ : Instant) (attempt : UInt32)
  | started (cancelled : Bool)
  | ended (how : HandlerEnd) (cancelled : Bool)
  /-- A renewal, without a result if it was abandoned or panicked. -/
  | renewed (until_ : Instant) (result : Option Lease.Renewal)
  | finalized (call : Poller.Finalization)
  | reminded (job : Reminder)

structure Logged where
  kind : String
  time : Nat
  entry : Entry

structure JobState where
  status : JobStatus
  attempt : UInt32
  owned : Bool
  invisibleUntil : Instant

inductive ActionResult where
  | nothing
  | scheduled
  | refused (e : StoreError)
  | stolen (kind : String) (attempt : UInt32)
  | state (active pending : Nat) (job : Option JobState)
  | stopped (time : Nat)

structure Counts where
  schedule : Nat := 0
  claim : Nat := 0
  claimNone : Nat := 0
  claimError : Nat := 0
  keep : Nat := 0
  complete : Nat := 0
  retry : Nat := 0
  forget : Nat := 0
  close : Nat := 0

structure Report where
  settings : Settings
  results : List ActionResult
  log : List Logged
  counts : Counts
  idle : List Nat
  left : List (String × JobState)
  stopped : Option Nat

namespace JobState

def ofJob (job : Job) : JobState :=
  ⟨job.status, job.attempt, job.claimedBy.isSome, job.invisibleUntil⟩

end JobState
end DelayedJobs.Simulation
