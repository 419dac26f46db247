import DelayedJobs.Simulation.Scenario

/-!
The rehearsal of a scenario in virtual time. At every instant each worker goes on until it has to
wait; then time moves to the next thing that is due. Storage calls take no time, except renewals
where the scenario says so, and handlers take the time their script says.
-/

namespace DelayedJobs.Simulation

structure WorkerTask where
  kind : String := ""
  script : HandlerScript := {}
  logged : Bool := false
  startedAt : Nat := 0
  renewalDue : Nat := 0
  renewalEntry : Nat := 0

inductive Plan where
  | scripted
  | reminder (job : Reminder)

structure Rehearsal where
  scenario : Scenario
  registry : Registry Plan
  world : World
  tasks : Array WorkerTask
  faults : Faults := {}
  log : Array Logged := #[]
  counts : Counts := {}
  idle : Array Nat := #[]
  runs : List (String × Nat) := []
  jobs : Nat := 0
  loot : Option Job := none

namespace Rehearsal

def idleLimit : Nat := 200

def workerId (n : Nat) : WorkerId := ⟨.ofNat (n + 1)⟩
def thief : WorkerId := ⟨.ofNat (Word.count127)⟩

def registryOf (s : Scenario) : Registry Plan :=
  let scripted (r : Registry Plan) (h : String × List HandlerScript) : Registry Plan :=
    r.register h.1 (.raw fun _ => .scripted)
  (s.handlers.foldl scripted .empty).registerJobs Reminder .reminder

def ofScenario (s : Scenario) : Rehearsal :=
  let world := World.start s.settings s.clock workerId
  { scenario := s, registry := registryOf s, world, tasks := world.workers.map fun _ => {} }

def now (r : Rehearsal) : Nat := r.world.now

def record (r : Rehearsal) (kind : String) (entry : Entry) : Rehearsal :=
  { r with log := r.log.push ⟨kind, r.now, entry⟩ }

def apply (r : Rehearsal) (e : World.Event) : Rehearsal :=
  { r with world := (r.world.step e).getD r.world }

def nextScript (r : Rehearsal) (kind : String) : HandlerScript × Rehearsal :=
  let n := (r.runs.lookup kind).getD 0
  let scripts := (r.scenario.handlers.lookup kind).getD []
  ((scripts[n]?.or scripts.getLast?).getD {},
    { r with runs := (kind, n + 1) :: r.runs.filter fun k => k.1 ≠ kind })

def startHandler (r : Rehearsal) (i : Nat) (job : Job) : Rehearsal :=
  let kind := job.payload.kind
  let begin_ (r : Rehearsal) (script : HandlerScript) (logged : Bool) : Rehearsal :=
    { r with tasks := r.tasks.setIfInBounds i { kind, script, logged, startedAt := r.now } }
  let scripted :=
    let (script, r) := r.nextScript kind
    begin_ (r.record kind (.started r.world.shutdown)) script true
  if r.scenario.registered then
    match r.registry.handle job.payload with
    | .ok .scripted => scripted
    | .ok (.reminder reminder) => begin_ (r.record kind (.reminded reminder)) {} false
    | .error _ => begin_ r { result := .failed } false
  else scripted

def handlerEnd (r : Rehearsal) (task : WorkerTask) (run : Poller.Run) : Nat × HandlerEnd :=
  match task.script.onCancel with
  | some result =>
    if run.cancelled r.world.shutdown then (r.now, ⟨result, true⟩)
    else (task.startedAt + task.script.length, ⟨task.script.result, false⟩)
  | none => (task.startedAt + task.script.length, ⟨task.script.result, false⟩)

def nextEvent? (r : Rehearsal) (worker : Worker) (task : WorkerTask) :
    Option (Nat × World.WorkerEvent) :=
  let down := r.world.shutdown
  match worker.supervisor with
  | .gated => some (r.now, .supervisor (if down then .cut else .gateOpened))
  | .checking _ => some (r.now, .supervisor .go)
  | .pausing _ wakeAt =>
    if down then some (r.now, .supervisor .cut) else some (wakeAt, .supervisor .wake)
  | .returned => none
  | .running k =>
    match worker.loop with
    | .checking => some (r.now, .go)
    | .claiming _ _ =>
      some (r.now, .claimReturns (if r.faults.has .claim then .failed else .done))
    | .resting wakeAt => if down then some (r.now, .cut) else some (wakeAt, .wake)
    | .finalizing _ _ =>
      some (r.now, .finalizeReturns (if r.faults.has .finalize then .failed else .done))
    | .stopped => some (r.now, .supervisor (.runEnded .ok .zero))
    | .panicked =>
      some (r.now, .supervisor (.runEnded .panicked (Supervisor.longestPause (k + 1))))
    | .running run =>
      if run.result.isNone then
        let (endsAt, how) := r.handlerEnd task run
        let handler := (endsAt, World.WorkerEvent.handlerEnds how.result)
        match run.lease with
        | .resting wakeAt => some (if wakeAt < endsAt then (wakeAt, .leaseWakes) else handler)
        | .renewing _ _ =>
          some (if task.renewalDue ≤ endsAt then
            (task.renewalDue, .renewalReturns r.faults.keepOutcome) else handler)
        | .ended _ => some handler
      else if !run.finished then some (r.now, .finish)
      else if !run.lease.isEnded then some (r.now, .leaseFinishes)
      else some (r.now, .conclude)

def setRenewal (r : Rehearsal) (task : WorkerTask) (result : Option Lease.Renewal) : Rehearsal :=
  { r with log := r.log.modify task.renewalEntry fun l =>
      match l.entry with
      | .renewed until_ _ => { l with entry := .renewed until_ result }
      | _ => l }

def countFinalization (c : Counts) : Poller.Finalization → Counts
  | .complete _ => { c with complete := c.complete + 1 }
  | .retry _ => { c with retry := c.retry + 1 }
  | .forget _ => { c with forget := c.forget + 1 }

def note (r : Rehearsal) (i : Nat) (task : WorkerTask) (before after : Poller.Phase)
    (e : World.WorkerEvent) : Rehearsal :=
  match e, before, after with
  | .claimReturns _, .claiming now until_, .running run =>
    let r := r.record run.job.payload.kind (.claimed now until_ run.job.attempt)
    startHandler { r with counts := { r.counts with claim := r.counts.claim + 1 } } i run.job
  | .claimReturns .done, .claiming _ _, _ =>
    { r with
      counts := { r.counts with claimNone := r.counts.claimNone + 1 }
      idle := if r.idle.size < idleLimit then r.idle.push r.now else r.idle }
  | .claimReturns _, .claiming _ _, _ =>
    { r with counts := { r.counts with claimError := r.counts.claimError + 1 } }
  | .handlerEnds _, .running run, _ =>
    if task.logged then
      let (_, how) := r.handlerEnd task run
      r.record task.kind (.ended how (run.cancelled r.world.shutdown))
    else r
  | .leaseWakes, _, .running { lease := .renewing _ until_, .. } =>
    { r.record task.kind (.renewed until_ none) with
      counts := { r.counts with keep := r.counts.keep + 1 }
      tasks := r.tasks.setIfInBounds i
        { task with renewalDue := r.now + r.faults.slowKeep, renewalEntry := r.log.size } }
  | .renewalReturns _, _, .running run =>
    match run.lease with
    | .ended .lost => r.setRenewal task (some .lost)
    | .ended _ => r
    | _ => r.setRenewal task (some (if r.faults.keepOutcome = .done then .kept else .failed))
  | .conclude, _, .finalizing job call =>
    { r.record job.payload.kind (.finalized call) with
      counts := countFinalization r.counts call }
  | _, _, _ => r

def goOn (i : Nat) : (fuel : Nat) → Rehearsal → Rehearsal
  | 0, r => r
  | fuel + 1, r =>
    match r.world.workers[i]?, r.tasks[i]? with
    | some worker, some task =>
      match r.nextEvent? worker task with
      | some (time, e) =>
        if time ≤ r.now then
          match r.world.step (.worker i e) with
          | some world =>
            let after := (world.workers[i]?.map (·.loop)).getD worker.loop
            goOn i fuel (note { r with world } i task worker.loop after e)
          | none => r
        else r
      | none => r
    | _, _ => r

def nextCleanerEvent? (r : Rehearsal) : Option (Nat × Supervised.Event Cleaner.Event) :=
  let down := r.world.shutdown
  match r.world.cleaner.supervisor with
  | .gated => some (r.now, .supervisor (if down then .cut else .gateOpened))
  | .checking _ => some (r.now, .supervisor .go)
  | .pausing _ wakeAt =>
    if down then some (r.now, .supervisor .cut) else some (wakeAt, .supervisor .wake)
  | .returned => none
  | .running k =>
    match r.world.cleaner.loop with
    | .idle streak =>
      some (r.now, .loop (.rest (Cleaner.pause streak r.world.settings.pruneInterval).nanos))
    | .resting _ wakeAt => if down then some (r.now, .loop .cut) else some (wakeAt, .loop .wake)
    | .pruning _ _ => some (r.now, .loop (.pruned .done))
    | .stopped => some (r.now, .supervisor (.runEnded .ok .zero))
    | .panicked =>
      some (r.now, .supervisor (.runEnded .panicked (Supervisor.longestPause (k + 1))))

def cleanOn : (fuel : Nat) → Rehearsal → Rehearsal
  | 0, r => r
  | fuel + 1, r =>
    match r.nextCleanerEvent? with
    | some (time, e) =>
      if time ≤ r.now then
        match r.world.step (.cleaner e) with
        | some world => cleanOn fuel { r with world }
        | none => r
      else r
    | none => r

/-- Lets every task go on until it has to wait. A worker takes fewer than sixteen steps for each
claim at one instant, and where the clock stands still it may claim a job until its attempts are
used up. -/
def settle (r : Rehearsal) : Rehearsal :=
  let fuel := 16 * (r.world.store.size + 2) * r.world.settings.retryLimit.toNat
  cleanOn 16 ((List.range r.world.workers.size).foldl (fun r i => goOn i fuel r) r)

def earlier (a : Option Nat) (b : Nat) : Option Nat :=
  match a with
  | none => some b
  | some a => some (min a b)

def nextTime? (r : Rehearsal) : Option Nat :=
  let cleaner := r.nextCleanerEvent?.map Prod.fst
  (List.range r.world.workers.size).foldl (fun best i =>
    match r.world.workers[i]?, r.tasks[i]? with
    | some worker, some task =>
      match r.nextEvent? worker task with
      | some (time, _) => earlier best time
      | none => best
    | _, _ => best) cleaner

def passTo (time : Nat) : (fuel : Nat) → Rehearsal → Rehearsal
  | 0, r => r
  | fuel + 1, r =>
    if r.now < time then
      let r := r.settle
      match r.nextTime? with
      | some t =>
        if t < time then passTo time fuel (r.apply (.advance (max t (r.now + 1))))
        else r.apply (.advance time)
      | none => r.apply (.advance time)
    else r

def passOut : (fuel : Nat) → Rehearsal → Rehearsal
  | 0, r => r
  | fuel + 1, r =>
    let r := r.settle
    if r.world.allReturned then r
    else
      match r.nextTime? with
      | some t => passOut fuel (r.apply (.advance (max t (r.now + 1))))
      | none => r

def milli : Nat := 1000000

/-- A bound on the number of instants at which something happens, given that tasks rest for a
tenth of a second at least and handlers run for the times of their scripts. -/
def horizon (s : Scenario) : Nat :=
  let last := (s.actions.map Prod.fst).foldl max 0
  let lengths := (s.handlers.flatMap fun h => h.2.map HandlerScript.length).foldl (· + ·) 0
  let workers := s.settings.clamped.workerCount.toNat + 2
  ((last + lengths) / (100 * milli) + 16) * workers * 8 + (last / milli + 1) * 2

def drain (r : Rehearsal) : Rehearsal :=
  let r := passOut (horizon r.scenario) (r.apply .shutdown)
  let r := (List.range r.world.tasks.size).foldl (fun r _ => r.apply .joined) r
  let r := (r.apply .close).apply .closed
  if r.world.closing = .closed then { r with counts := { r.counts with close := 1 } } else r

def store (r : Rehearsal) : MemoryStore := r.world.store

def schedule (r : Rehearsal) (payload : Payload) (due : Instant) : ActionResult × Rehearsal :=
  if r.faults.has .schedule then (.refused (.unavailable "injected schedule failure"), r)
  else
    let r := r.record payload.kind (.scheduled due payload.data)
    let r := r.apply (.outside (.schedule (.ofNat (r.jobs + 1)) payload due))
    (.scheduled,
      { r with jobs := r.jobs + 1, counts := { r.counts with schedule := r.counts.schedule + 1 } })

def scheduleJob {α : Type} [JobKind α] (r : Rehearsal) (job : α) (due : Instant) :
    ActionResult × Rehearsal :=
  match Payload.ofJob job with
  | .ok payload => r.schedule payload due
  | .error e => (.refused e, r)

def isActive (worker : Worker) (task : WorkerTask) : Bool :=
  match worker.loop with
  | .running run => run.result.isNone && task.logged
  | _ => false

def active (r : Rehearsal) : Nat :=
  (r.world.workers.zip r.tasks).toList.countP fun (worker, task) => isActive worker task

def perform (r : Rehearsal) : Action → ActionResult × Rehearsal
  | .schedule payload due => r.schedule payload due
  | .scheduleIn payload delay => r.schedule payload (r.world.context.instant.after delay)
  | .scheduleReminder job due => r.scheduleJob job due
  | .schedulePicky job due => r.scheduleJob job due
  | .fault name on => (.nothing, { r with faults := r.faults.switch name on })
  | .slowKeep length => (.nothing, { r with faults := { r.faults with slowKeep := length } })
  | .steal until_ =>
    match (r.store.claim thief .latest until_).1 with
    | some job =>
      (.stolen job.payload.kind job.attempt,
        { r.apply (.outside (.claim thief .latest until_)) with loot := some job })
    | none => (.nothing, r)
  | .thiefCompletes =>
    (.nothing, r.loot.elim r fun job =>
      r.apply (.outside (.complete thief job r.world.context.instant)))
  | .thiefRetries due =>
    (.nothing, r.loot.elim r fun job => r.apply (.outside (.retry thief job due)))
  | .inspect kind =>
    (.state r.active r.store.size
      ((r.store.jobs.find? fun j => j.payload.kind = kind).map JobState.ofJob), r)
  | .wait => (.nothing, r)
  | .drop => (.nothing, r.apply .drop)
  | .shutdown =>
    let r := r.drain
    (.stopped r.now, r)

def performAll : List (Nat × Action) → Rehearsal → List ActionResult × Rehearsal
  | [], r => ([], r)
  | (time, action) :: rest, r =>
    let (result, r) := perform (passTo time (horizon r.scenario) r) action
    let (results, r) := performAll rest r
    (result :: results, r)

end Rehearsal

/-- Rehearses a scenario. A scheduler that was neither shut down nor dropped is shut down at the
end. -/
def Scenario.report (s : Scenario) : Report :=
  let (results, r) := Rehearsal.performAll s.actions (.ofScenario s)
  let (stopped, r) :=
    if r.world.shutdown then (none, r)
    else
      let r := r.drain
      (some r.now, r)
  { settings := r.world.settings
    results
    log := r.log.toList
    counts := r.counts
    idle := r.idle.toList
    left := r.store.jobs.map fun j => (j.payload.kind, JobState.ofJob j)
    stopped }

end DelayedJobs.Simulation
