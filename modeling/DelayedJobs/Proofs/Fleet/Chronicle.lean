import DelayedJobs.Proofs.Fleet.Basic
import DelayedJobs.Proofs.Scheduler.Processing
import DelayedJobs.Proofs.Store.Leases
import Mathlib.Data.List.Induction

/-!
What happens in a fleet, written down with the latest first: the jobs that are scheduled, the
requests that the store serves and the deeds of the workers. A worker takes a step of one of a few
kinds; what is true of every run is proved for each kind.
-/

namespace DelayedJobs
open Store (Request Answer)

theorem MemoryStore.owner?_schedule {s : MemoryStore} {id : Uuid} (payload : Payload)
    (due : Instant) (fresh : s.get? id = none) (other : Uuid) :
    (s.schedule id payload due).owner? other = s.owner? other := by
  rw [owner?, owner?, get?_schedule payload due fresh]
  split
  next same => rw [same, fresh]; rfl
  next => rfl

theorem MemoryStore.get?_eq_none_of_schedule (s : MemoryStore) {id other : Uuid} {payload : Payload}
    {due : Instant} (gone : (s.schedule id payload due).get? other = none) :
    s.get? other = none := by
  rw [get?_eq_none_iff] at gone ⊢
  intro job member same
  by_cases replaced : job.id = id
  · exact gone (Job.new id payload due) (by simp [schedule]) (replaced.symm.trans same)
  · exact gone job (by simp [schedule, member, replaced]) same

def Poller.Phase.job? : Poller.Phase → Option Job
  | .running run => some run.job
  | .finalizing job _ => some job
  | _ => none

namespace Fleet

inductive Entry where
  | scheduled (id : Uuid) (payload : Payload) (due : Instant)
  | served (worker : WorkerId) (r : Request) (a : Answer)
  | did (worker : WorkerId) (d : Poller.Deed)

namespace Entry

def drawn? : Entry → Option Uuid
  | scheduled id _ _ => some id
  | _ => none

def claim? : Entry → Option (WorkerId × Job)
  | served worker (.claim _ _ _) (.claimed (some job)) => some (worker, job)
  | _ => none

def start? : Entry → Option (WorkerId × Job)
  | did worker d => d.start?.map fun job => (worker, job)
  | _ => none

/-- A claim that brought nothing, or the upkeep of a lease. -/
def isAside : Entry → Bool
  | served _ (.claim _ _ _) (.claimed none) | served _ (.keep _ _ _) _ => true
  | did _ (.renewed _) | did _ (.upkeepEnded _) => true
  | _ => false

end Entry

def claims (log : List Entry) (id : Uuid) : List (WorkerId × Job) :=
  (log.filterMap Entry.claim?).filter fun c => c.2.id = id

def Event.drawn? : Event → Option Uuid
  | .schedule id _ _ => some id
  | _ => none

def deedsOf (f : Fleet) (m : Member) (e : World.WorkerEvent) : List Poller.Deed :=
  ((World.loopEvent? f.store m.worker e).bind fun (event, _) =>
    (Poller.step (f.context m) m.loop event).map fun loop =>
      Poller.deedsOf m.loop loop event).getD []

/-- What is written down of a step of a member: the deeds come after the call returns. -/
def memberEntries (f : Fleet) (m : Member) (e : World.WorkerEvent) : List Entry :=
  (f.deedsOf m e).map (.did m.id) ++
    (m.request? e).toList.map fun r => .served m.id r (f.store.apply r).1

def entries (f : Fleet) : Event → List Entry
  | .schedule id payload due => [.scheduled id payload due]
  | .member i e => (f.members[i]?.map fun m => f.memberEntries m e).getD []
  | .advance _ | .shutdown _ => []

def chronicle (f : Fleet) : List Event → List Entry
  | [] => []
  | e :: rest => ((f.step e).map fun g => g.chronicle rest).getD [] ++ f.entries e

variable {f g : Fleet} {m after : Member} {e : World.WorkerEvent} {store : MemoryStore}

/-- The kinds of steps that a member takes: the phase that a step leads to, the store after it and
what is written down. -/
inductive Acts (f : Fleet) (m : Member) (e : World.WorkerEvent) :
    Poller.Phase → MemoryStore → List Entry → Prop
  | looks {q log} (free : m.loop.job? = none) (still : q.job? = none)
      (asks : ∀ now until_, q = .claiming now until_ → now = f.instant)
      (aside : ∀ e ∈ log, e.isAside = true) : Acts f m e q f.store log
  | takes {now until_ job store} (claiming : m.loop = .claiming now until_)
      (claims : f.store.claim m.id now until_ = (some job, store)) :
      Acts f m e (.running { job, lease := Lease.start m.settings f.now }) store
        [.did m.id (.started job), .served m.id (.claim m.id now until_) (.claimed (some job))]
  | ends {run r} (running : m.loop = .running run) (working : run.result = none) :
      Acts f m e (.running { run with result := some r }) f.store [.did m.id (.ended run.job r)]
  | sees {run} (running : m.loop = .running run) (ended : run.result.isSome = true) :
      Acts f m e (.running { run with finished := true }) f.store []
  | turns {run lease log} (running : m.loop = .running run)
      (held : lease.hijacked = true → e = .renewalReturns .denied)
      (aside : ∀ e ∈ log, e.isAside = true) : Acts f m e (.running { run with lease }) f.store log
  | renews {run lease until_ log} (running : m.loop = .running run)
      (held : lease.hijacked = true → f.store.owner? run.job.id ≠ some m.id)
      (aside : ∀ e ∈ log, e.isAside = true) :
      Acts f m e (.running { run with lease }) (f.store.apply (.keep m.id run.job until_)).2 log
  | leaves {run} (running : m.loop = .running run) (lost : run.lease.hijacked = true) :
      Acts f m e .checking f.store []
  | decides {run call} (running : m.loop = .running run) (finished : run.finished = true)
      (fits : call =
        Poller.finalization m.settings f.instant run.job (run.result == some .ok)) :
      Acts f m e (.finalizing run.job call) f.store [.did m.id (.called run.job call)]
  | settles {job call} (finalizing : m.loop = .finalizing job call) :
      Acts f m e .checking (f.store.apply (call.request m.id job)).2
        [.served m.id (call.request m.id job) .done]
  | drops {job call q} (finalizing : m.loop = .finalizing job call) (idle : q.job? = none)
      (asks : ∀ now until_, q ≠ .claiming now until_) :
      Acts f m e q f.store [.did m.id (.dropped job call)]

theorem deedsOf_eq {event : Poller.Event} {loop : Poller.Phase}
    (returns : World.loopEvent? f.store m.worker e = some (event, store))
    (moves : Poller.step (f.context m) m.loop event = some loop) :
    f.deedsOf m e = Poller.deedsOf m.loop loop event := by
  simp only [deedsOf, returns, Option.bind_some, moves, Option.map_some, Option.getD_some]

theorem isAside_leaseDeeds (worker : WorkerId) (lease : Lease.Phase) (event : Lease.Event) :
    ∀ x ∈ (Poller.leaseDeeds lease event).map (Entry.did worker), x.isAside = true := by
  cases event <;> simp [Poller.leaseDeeds, or_imp, forall_and, Entry.isAside]

theorem acts_without_job {now until_ : Instant} (claiming : m.loop = .claiming now until_)
    (c : Poller.Claim) (nothing : ∀ job, c ≠ .job job) {log : List Entry}
    (aside : ∀ x ∈ log, x.isAside = true) :
    let q := Poller.claimed (f.context m) c
    f.Acts m e q f.store
      ((Poller.deedsOf (.claiming now until_) q (.claimed c)).map (.did m.id) ++ log) := by
  have free : m.loop.job? = none := by rw [claiming]; rfl
  cases c with
  | job job => exact absurd rfl (nothing job)
  | panicked => exact .looks free rfl (by rintro _ _ ⟨⟩) aside
  | nothing | failed =>
    cases shutdown : (f.context m).shutdown <;> simp only [Poller.claimed, shutdown] <;>
      exact .looks free rfl (by rintro _ _ ⟨⟩) aside

/-! One lemma for each event of a worker. -/

section Events
variable {q : Poller.Phase}

theorem acts_go (moves : Poller.step (f.context m) m.loop .go = some q) :
    f.Acts m .go q f.store (f.memberEntries m .go) := by
  obtain ⟨checking, next⟩ := Poller.step_eq_some_iff.mp moves
  have free : m.loop.job? = none := by rw [checking]; rfl
  rw [memberEntries, deedsOf_eq rfl moves, checking]
  split at next
  · subst next
    exact .looks free rfl (by rintro _ _ ⟨⟩) (List.forall_mem_nil _)
  · subst next
    refine .looks free rfl ?_ (List.forall_mem_nil _)
    rintro _ _ ⟨⟩
    rfl

theorem acts_wake (moves : Poller.step (f.context m) m.loop .wake = some q) :
    f.Acts m .wake q f.store (f.memberEntries m .wake) := by
  rw [memberEntries, deedsOf_eq rfl moves]
  obtain ⟨wakeAt, resting, -, rfl⟩ := Poller.step_eq_some_iff.mp moves
  rw [resting]
  exact .looks (by rw [resting]; rfl) rfl (by rintro _ _ ⟨⟩) (List.forall_mem_nil _)

theorem acts_cut (moves : Poller.step (f.context m) m.loop .cut = some q) :
    f.Acts m .cut q f.store (f.memberEntries m .cut) := by
  rw [memberEntries, deedsOf_eq rfl moves]
  obtain ⟨⟨wakeAt, resting⟩, -, rfl⟩ := Poller.step_eq_some_iff.mp moves
  rw [resting]
  exact .looks (by rw [resting]; rfl) rfl (by rintro _ _ ⟨⟩) (List.forall_mem_nil _)

theorem acts_handlerEnds {r : Poller.HandlerResult}
    (moves : Poller.step (f.context m) m.loop (.handlerEnded r) = some q) :
    f.Acts m (.handlerEnds r) q f.store (f.memberEntries m (.handlerEnds r)) := by
  rw [memberEntries, deedsOf_eq rfl moves]
  obtain ⟨run, running, working, rfl⟩ := Poller.step_eq_some_iff.mp moves
  rw [running]
  obtain ⟨job, result, finished, lease⟩ := run
  cases working
  exact .ends running rfl

theorem acts_finish (moves : Poller.step (f.context m) m.loop .finish = some q) :
    f.Acts m .finish q f.store (f.memberEntries m .finish) := by
  rw [memberEntries, deedsOf_eq rfl moves]
  obtain ⟨run, running, ⟨ended, -⟩, rfl⟩ := Poller.step_eq_some_iff.mp moves
  rw [running]
  obtain ⟨job, result, finished, lease⟩ := run
  obtain ⟨r, rfl⟩ := Option.isSome_iff_exists.mp ended
  exact .sees running ended

theorem acts_leaseWakes (moves : Poller.step (f.context m) m.loop (.lease .wake) = some q) :
    f.Acts m .leaseWakes q f.store (f.memberEntries m .leaseWakes) := by
  rw [memberEntries, deedsOf_eq rfl moves]
  obtain ⟨run, running, -, lease, upkeep, rfl⟩ := Poller.step_eq_some_iff.mp moves
  obtain ⟨wakeAt, resting, due, rfl⟩ := Lease.step_eq_some_iff.mp upkeep
  exact .turns running (by rintro ⟨⟩) (List.forall_mem_nil _)

theorem acts_leaseFinishes (moves : Poller.step (f.context m) m.loop (.lease .finish) = some q) :
    f.Acts m .leaseFinishes q f.store (f.memberEntries m .leaseFinishes) := by
  rw [memberEntries, deedsOf_eq rfl moves]
  obtain ⟨run, running, finished, lease, upkeep, rfl⟩ := Poller.step_eq_some_iff.mp moves
  obtain ⟨-, rfl⟩ := Lease.step_eq_some_iff.mp upkeep
  refine .turns running (by rintro ⟨⟩) ?_
  exact List.forall_mem_append.mpr ⟨isAside_leaseDeeds m.id _ .finish, List.forall_mem_nil _⟩

theorem acts_conclude (moves : Poller.step (f.context m) m.loop .conclude = some q) :
    f.Acts m .conclude q f.store (f.memberEntries m .conclude) := by
  rw [memberEntries, deedsOf_eq rfl moves]
  obtain ⟨run, running, ⟨finished, -⟩, next⟩ := Poller.step_eq_some_iff.mp moves
  split at next
  next lost =>
    subst next
    exact .leaves running lost
  next =>
    subst next
    exact .decides running finished rfl

variable {o : CallOutcome}

theorem acts_claimReturns (coherent : f.store.Coherent) {now until_ : Instant}
    (claiming : m.loop = .claiming now until_) :
    let (claim, store) := World.claimReturns f.store m.id now until_ o
    let q := Poller.claimed (f.context m) claim
    f.Acts m (.claimReturns o) q store
      ((Poller.deedsOf m.loop q (.claimed claim)).map (.did m.id) ++
        (m.request? (.claimReturns o)).toList.map
          fun r => .served m.id r (f.store.apply r).1) := by
  rw [claiming]
  cases o with
  | denied => exact acts_without_job claiming .nothing (by simp) (List.forall_mem_nil _)
  | failed => exact acts_without_job claiming .failed (by simp) (List.forall_mem_nil _)
  | panicked => exact acts_without_job claiming .panicked (by simp) (List.forall_mem_nil _)
  | done =>
    rw [World.claimReturns_done, Member.request?, claiming]
    obtain ⟨nothing, -⟩ | ⟨job, -, -, -, takes⟩ := coherent.claim_cases m.id now until_
    · have quiet : (Entry.served m.id (.claim m.id now until_)
          (f.store.apply (.claim m.id now until_)).1).isAside = true := by
        rw [MemoryStore.apply, nothing, Entry.isAside]
      rw [nothing]
      exact acts_without_job claiming .nothing (by simp) (List.forall_mem_singleton.mpr quiet)
    · have answer : (f.store.apply (.claim m.id now until_)).1 =
          .claimed (some (job.leased m.id until_)) := by rw [MemoryStore.apply, takes]
      have acts := Acts.takes (f := f) (m := m) (e := .claimReturns .done) claiming takes
      rw [← answer] at acts
      rw [takes]
      exact acts

theorem acts_renewalReturns (coherent : f.store.Coherent) {run : Poller.Run} {since : Nat}
    {until_ : Instant} (running : m.loop = .running run)
    (renewing : run.lease = .renewing since until_) :
    let (renewal, store) := World.renewalReturns f.store m.id run.job.id until_ o
    let lease := Lease.answered m.settings f.now renewal
    f.Acts m (.renewalReturns o) (.running { run with lease }) store
      ((Poller.leaseDeeds lease (.answer renewal)).map (.did m.id) ++
        (m.request? (.renewalReturns o)).toList.map
          fun r => .served m.id r (f.store.apply r).1) := by
  have quiet (r : Lease.Renewal) := isAside_leaseDeeds m.id
    (Lease.answered m.settings f.now r) (.answer r)
  cases o with
  | denied =>
    exact .turns running (fun _ => rfl)
      (List.forall_mem_append.mpr ⟨quiet .lost, List.forall_mem_nil _⟩)
  | failed =>
    exact .turns running (by rintro ⟨⟩)
      (List.forall_mem_append.mpr ⟨quiet .failed, List.forall_mem_nil _⟩)
  | panicked =>
    exact .turns running (by rintro ⟨⟩)
      (List.forall_mem_append.mpr ⟨quiet .panicked, List.forall_mem_nil _⟩)
  | done =>
    obtain ⟨job, result, finished, lease⟩ := run
    cases renewing
    have served : ∀ a, (Entry.served m.id (.keep m.id job until_) a).isAside = true :=
      fun _ => rfl
    rw [World.renewalReturns_done, Member.request?, running]
    refine .renews running ?_
      (List.forall_mem_append.mpr ⟨quiet _, List.forall_mem_singleton.mpr (served _)⟩)
    obtain ⟨refused, other⟩ | ⟨held, -, -, -, renewed⟩ := coherent.keep_cases m.id job.id until_
    · exact fun _ => other
    · rw [renewed]
      rintro ⟨⟩

theorem acts_finalizeReturns {job : Job} {call : Poller.Finalization}
    (finalizing : m.loop = .finalizing job call) :
    let (finalized, store) := World.finalizeReturns f.store m.id job call o
    let q := if finalized = .panicked then .panicked else .checking
    f.Acts m (.finalizeReturns o) q store
      ((Poller.deedsOf m.loop q (.finalized finalized)).map (.did m.id) ++
        (m.request? (.finalizeReturns o)).toList.map
          fun r => .served m.id r (f.store.apply r).1) := by
  rw [finalizing]
  cases o with
  | done =>
    rw [Member.request?, finalizing]
    cases call <;> exact .settles finalizing
  | denied | failed | panicked => exact .drops finalizing rfl (by rintro _ _ ⟨⟩)

end Events

theorem acts_of_step (coherent : f.store.Coherent) (step : f.stepMember m e = some (after, store)) :
    f.Acts m e after.loop store (f.memberEntries m e) := by
  obtain ⟨event, q, returns, moves, rfl⟩ := stepMember_eq_some.mp step
  cases e with
  | supervisor => cases returns
  | go =>
    cases returns
    exact acts_go moves
  | wake =>
    cases returns
    exact acts_wake moves
  | cut =>
    cases returns
    exact acts_cut moves
  | handlerEnds r =>
    cases returns
    exact acts_handlerEnds moves
  | finish =>
    cases returns
    exact acts_finish moves
  | leaseWakes =>
    cases returns
    exact acts_leaseWakes moves
  | leaseFinishes =>
    cases returns
    exact acts_leaseFinishes moves
  | conclude =>
    cases returns
    exact acts_conclude moves
  | claimReturns o =>
    rw [memberEntries, deedsOf_eq returns moves]
    obtain ⟨now, until_, claiming, rfl, rfl⟩ := World.claiming_of_returns returns
    obtain ⟨-, rfl⟩ := Poller.step_eq_some_iff.mp moves
    exact acts_claimReturns coherent claiming
  | renewalReturns o =>
    rw [memberEntries, deedsOf_eq returns moves]
    obtain ⟨run, since, until_, running, renewing, rfl, rfl⟩ := World.renewing_of_returns returns
    obtain ⟨run', loop, -, lease, upkeep, rfl⟩ := Poller.step_eq_some_iff.mp moves
    cases loop.symm.trans running
    obtain ⟨-, rfl⟩ := Lease.step_eq_some_iff.mp upkeep
    exact acts_renewalReturns coherent running renewing
  | finalizeReturns o =>
    rw [memberEntries, deedsOf_eq returns moves]
    obtain ⟨job, call, finalizing, rfl, rfl⟩ := World.finalizing_of_returns returns
    obtain ⟨-, rfl⟩ := Poller.step_eq_some_iff.mp moves
    exact acts_finalizeReturns finalizing

/-! What a step makes of a job. -/

theorem claims_append (a b : List Entry) (id : Uuid) :
    claims (a ++ b) id = claims a id ++ claims b id := by
  rw [claims, List.filterMap_append, List.filter_append, claims, claims]

theorem mem_claims_append {log : List Entry} {id : Uuid} {c : WorkerId × Job}
    (h : c ∈ claims log id) (more : List Entry) : c ∈ claims (more ++ log) id := by
  rw [claims_append]
  exact List.mem_append_right _ h

theorem Entry.none_of_isAside {x : Entry} (h : x.isAside = true) :
    x.claim? = none ∧ x.start? = none := by
  unfold isAside at h
  split at h <;> first | exact ⟨rfl, rfl⟩ | cases h

theorem claims_of_aside {log : List Entry} (aside : ∀ x ∈ log, x.isAside = true) (id : Uuid) :
    claims log id = [] := by
  have nothing : log.filterMap Entry.claim? = [] :=
    List.filterMap_eq_nil_iff.mpr fun x hx => (Entry.none_of_isAside (aside x hx)).1
  rw [claims, nothing, List.filter_nil]

theorem claims_taken (worker : WorkerId) (now until_ : Instant) (job : Job) (id : Uuid) :
    claims [.did worker (.started job), .served worker (.claim worker now until_)
      (.claimed (some job))] id = if job.id = id then [(worker, job)] else [] := by
  have taken : claims [.did worker (.started job), .served worker (.claim worker now until_)
      (.claimed (some job))] id = [(worker, job)].filter fun c => c.2.id = id := rfl
  rw [taken, List.filter_singleton]
  simp

theorem claims_settled {worker : WorkerId} {job : Job} {call : Poller.Finalization} (id : Uuid) :
    claims [.served worker (call.request worker job) .done] id = [] := by
  cases call <;> rfl

inductive Fate (m : Member) (log : List Entry) (id : Uuid) : Option Job → Option Job → Prop
  | stays {job} (unclaimed : claims log id = []) : Fate m log id job job
  | claimed {job now until_} (claiming : m.loop = .claiming now until_)
      (due : job.invisibleUntil ≤ now)
      (claimed : claims log id = [(m.id, job.leased m.id until_)]) :
      Fate m log id (some job) (some (job.leased m.id until_))
  | renewed {job until_} (unclaimed : claims log id = []) (owner : job.claimedBy = some m.id) :
      Fate m log id (some job) (some (job.renewed until_))
  | settled {job snapshot call} (finalizing : m.loop = .finalizing snapshot call)
      (same : snapshot.id = id) (owner : job.claimedBy = some m.id)
      (served : log = [.served m.id (call.request m.id snapshot) .done]) :
      Fate m log id (some job) ((call.request m.id snapshot).outcome job)

theorem caller?_request (call : Poller.Finalization) (worker : WorkerId) (job : Job) :
    (call.request worker job).caller? = some (worker, job.id) := by
  cases call <;> rfl

theorem Acts.fate {q : Poller.Phase} {log : List Entry} (acts : f.Acts m e q store log)
    (coherent : f.store.Coherent) (id : Uuid) :
    Fate m log id (f.store.get? id) (store.get? id) := by
  cases acts with
  | looks free still asks aside | turns running held aside =>
    exact .stays (claims_of_aside aside id)
  | ends | sees | leaves | decides | drops => exact .stays rfl
  | takes claiming takes =>
    obtain ⟨nothing, -⟩ | ⟨job, member, due, -, eq⟩ := coherent.claim_cases m.id _ _
    · cases nothing.symm.trans takes
    · cases eq.symm.trans takes
      rw [coherent.get?_replace member (Job.id_leased _ _ _)]
      split
      next same =>
        rw [same, coherent.get?_eq_some_iff.mpr ⟨member, rfl⟩]
        exact .claimed claiming due ((claims_taken ..).trans (if_pos rfl))
      next other => exact .stays ((claims_taken ..).trans (if_neg (Ne.symm other)))
  | @renews run _ until_ _ running held aside =>
    have unclaimed := claims_of_aside aside id
    obtain ⟨owner, -, job, found, after⟩ | ⟨-, -, refused⟩ :=
      coherent.apply_of_caller (r := .keep m.id run.job until_) rfl
    · rw [after]
      split
      next same =>
        rw [MemoryStore.owner?, found, Option.bind_some] at owner
        rw [same, found]
        exact .renewed (same ▸ unclaimed) owner
      next => exact .stays unclaimed
    · rw [refused]
      exact .stays unclaimed
  | settles finalizing =>
    obtain ⟨owner, -, job, found, after⟩ | ⟨-, -, refused⟩ :=
      coherent.apply_of_caller (caller?_request _ m.id _)
    · rw [after]
      split
      next same =>
        rw [MemoryStore.owner?, found, Option.bind_some] at owner
        rw [same, found]
        exact .settled finalizing rfl owner rfl
      next => exact .stays (claims_settled id)
    · rw [refused]
      exact .stays (claims_settled id)

/-! Runs. -/

/-- What an event leads to, and what is written down of it. -/
inductive Moves (f : Fleet) : Event → Fleet → Prop
  | waits {time : Nat} (later : f.now ≤ time) (told : f.entries (.advance time) = []) :
      Moves f (.advance time) { f with now := time }
  | acts {i : Nat} {m after : Member} {event : World.WorkerEvent} {store : MemoryStore}
      (found : f.members[i]? = some m) (moves : f.stepMember m event = some (after, store))
      (told : f.entries (.member i event) = f.memberEntries m event) :
      Moves f (.member i event) { f with members := f.members.set i after, store }
  | schedules {id : Uuid} {payload : Payload} {due : Instant}
      (told : f.entries (.schedule id payload due) = [.scheduled id payload due]) :
      Moves f (.schedule id payload due) { f with store := f.store.schedule id payload due }
  | retires {i : Nat} {m : Member} (found : f.members[i]? = some m)
      (told : f.entries (.shutdown i) = []) :
      Moves f (.shutdown i) { f with members := f.members.set i { m with shutdown := true } }

theorem moves_of_step {e : Event} (step : f.step e = some g) : f.Moves e g := by
  cases e with
  | advance time =>
    obtain ⟨later, next⟩ := Option.ite_none_right_eq_some.mp step
    cases next
    exact .waits later rfl
  | member i event =>
    rw [Fleet.step] at step
    split at step
    next m found =>
      obtain ⟨⟨after, store⟩, moves, rfl⟩ := Option.map_eq_some_iff.mp step
      exact .acts found moves (by rw [entries, found, Option.map_some, Option.getD_some])
    next => cases step
  | schedule id payload due =>
    cases step
    exact .schedules rfl
  | shutdown i =>
    rw [Fleet.step] at step
    split at step
    next m found =>
      cases step
      exact .retires found rfl
    next => cases step

/-- A run, with its events and what was written down, in which no identifier is drawn twice. -/
inductive Reaches (start : Fleet) : List Event → List Entry → Fleet → Prop
  | nil : Reaches start [] [] start
  | snoc {events log f e g} (before : Reaches start events log f)
      (fresh : ∀ id, e.drawn? = some id → id ∉ log.filterMap Entry.drawn?)
      (step : f.step e = some g) : Reaches start (events ++ [e]) (f.entries e ++ log) g

theorem run?_append (a b : List Event) : f.run? (a ++ b) = (f.run? a).bind fun f => f.run? b := by
  induction a generalizing f with
  | nil => rfl
  | cons e rest ih =>
    simp only [List.cons_append, run?, Option.bind_assoc]
    exact congrArg _ (funext fun g => ih)

theorem chronicle_append {events : List Event} (run : f.run? events = some g) (rest : List Event) :
    f.chronicle (events ++ rest) = g.chronicle rest ++ f.chronicle events := by
  induction events generalizing f with
  | nil =>
    cases run
    rw [List.nil_append, chronicle, List.append_nil]
  | cons e later ih =>
    obtain ⟨between, first, run⟩ := Option.bind_eq_some_iff.mp run
    simp only [List.cons_append, chronicle, first, Option.map_some, Option.getD_some, ih run,
      List.append_assoc]

theorem chronicle_snoc {events : List Event} {e : Event} {next : Fleet}
    (run : f.run? events = some g) (step : g.step e = some next) :
    f.chronicle (events ++ [e]) = g.entries e ++ f.chronicle events := by
  rw [chronicle_append run, chronicle, step]
  rfl

theorem drawn?_memberEntries (f : Fleet) (m : Member) (e : World.WorkerEvent) :
    (f.memberEntries m e).filterMap Entry.drawn? = [] := by
  simp [memberEntries, Entry.drawn?]

theorem scheduled_notMem_memberEntries (f : Fleet) (m : Member) (e : World.WorkerEvent) (id : Uuid)
    (payload : Payload) (due : Instant) : .scheduled id payload due ∉ f.memberEntries m e :=
  fun member => nomatch List.filterMap_eq_nil_iff.mp (drawn?_memberEntries f m e) _ member

theorem drawn?_entries {e : Event} (step : f.step e = some g) :
    (f.entries e).filterMap Entry.drawn? = e.drawn?.toList := by
  cases moves_of_step step with
  | waits _ told | schedules told | retires _ told =>
    rw [told]
    rfl
  | acts _ _ told =>
    rw [told, drawn?_memberEntries]
    rfl

theorem Reaches.drawn {start : Fleet} {events : List Event} {log : List Entry}
    (h : Reaches start events log f) :
    log.filterMap Entry.drawn? = (events.filterMap Event.drawn?).reverse := by
  induction h with
  | nil => rfl
  | snoc before fresh step ih =>
    rw [List.filterMap_append, drawn?_entries step, ih, List.filterMap_append, List.reverse_append]
    cases h : Event.drawn? _ <;> simp [h]

theorem reaches_of_run {start : Fleet} {events : List Event} (run : start.run? events = some f)
    (drawn : (events.filterMap Event.drawn?).Nodup) :
    Reaches start events (start.chronicle events) f := by
  induction events using List.reverseRecOn generalizing f with
  | nil =>
    cases run
    exact .nil
  | append_singleton events e ih =>
    rw [run?_append] at run
    obtain ⟨between, early, last⟩ := Option.bind_eq_some_iff.mp run
    obtain ⟨next, step, same⟩ := Option.bind_eq_some_iff.mp last
    cases same
    rw [List.filterMap_append, List.nodup_append] at drawn
    obtain ⟨drawn, -, fresh⟩ := drawn
    have before := ih early drawn
    rw [chronicle_snoc early step]
    refine before.snoc (fun id draws => ?_) step
    rw [before.drawn, List.mem_reverse]
    exact fun earlier => fresh id earlier id (by simp [draws]) rfl

theorem Reaches.run {start : Fleet} {events : List Event} {log : List Entry}
    (h : Reaches start events log f) : start.run? events = some f := by
  induction h with
  | nil => rfl
  | snoc before fresh step ih => rw [run?_append, ih, Option.bind_some, run?, step]; rfl

/-! What is true of every run. -/

theorem Fate.present {log : List Entry} {id : Uuid} {before after : Option Job}
    (h : Fate m log id before after) (present : after ≠ none) : before ≠ none := by
  cases h with
  | stays => exact present
  | claimed | renewed | settled => exact Option.some_ne_none _

structure Steady (pollers : List (WorkerId × Settings)) (log : List Entry) (f : Fleet) : Prop where
  coherent : f.store.Coherent
  distinct : (f.members.map Member.id).Nodup
  settings : ∀ m ∈ f.members, ∃ raw, (m.id, raw) ∈ pollers ∧ m.settings = raw.clamped
  known : ∀ id, f.store.get? id ≠ none → id ∈ log.filterMap Entry.drawn?

variable {clock : Clock} {pollers : List (WorkerId × Settings)} {events : List Event}
  {log : List Entry}

theorem steady_start (distinct : (pollers.map Prod.fst).Nodup) :
    (start clock pollers).Steady pollers [] where
  coherent := MemoryStore.coherent_empty
  distinct := by
    rw [start, List.map_map]
    exact distinct
  settings m member := by
    obtain ⟨⟨id, raw⟩, poller, rfl⟩ := List.mem_map.mp member
    exact ⟨raw, poller, rfl⟩
  known _ found := absurd rfl found

theorem Steady.set (h : f.Steady pollers log) {i : Nat} (found : f.members[i]? = some m)
    (id : after.id = m.id) (settings : after.settings = m.settings) (coherent : store.Coherent)
    {more : List Entry}
    (known : ∀ id, store.get? id ≠ none → id ∈ (more ++ log).filterMap Entry.drawn?) :
    ({ f with members := f.members.set i after, store } : Fleet).Steady pollers (more ++ log) where
  coherent := coherent
  distinct := by
    rw [ids_set found id]
    exact h.distinct
  settings other member := by
    obtain member | rfl := List.mem_or_eq_of_mem_set member
    · exact h.settings other member
    · rw [id, settings]
      exact h.settings m (List.mem_of_getElem? found)
  known := known

theorem Steady.fresh (h : f.Steady pollers log) {id : Uuid}
    (fresh : id ∉ log.filterMap Entry.drawn?) : f.store.get? id = none :=
  Decidable.byContradiction fun present => fresh (h.known id present)

theorem Reaches.steady (h : Reaches (start clock pollers) events log f)
    (distinct : (pollers.map Prod.fst).Nodup) : f.Steady pollers log := by
  induction h with
  | nil => exact steady_start distinct
  | @snoc _ log f _ _ before fresh step ih =>
    have still (more : List Entry) {id : Uuid} (known : f.store.get? id ≠ none) :
        id ∈ (more ++ log).filterMap Entry.drawn? := by
      rw [List.filterMap_append]
      exact List.mem_append_right _ (ih.known id known)
    cases moves_of_step step with
    | waits _ told =>
      rw [told]
      exact ⟨ih.coherent, ih.distinct, ih.settings, ih.known⟩
    | acts found moves told =>
      obtain ⟨id, settings⟩ := settings_stepMember moves
      refine ih.set found id settings (coherent_stepMember ih.coherent moves) fun id present => ?_
      have fate := (acts_of_step ih.coherent moves).fate ih.coherent id
      exact still _ (fate.present present)
    | @schedules id payload due told =>
      have absent := ih.fresh (fresh id rfl)
      refine ⟨ih.coherent.schedule payload due absent, ih.distinct, ih.settings,
        fun other present => ?_⟩
      rw [MemoryStore.get?_schedule payload due absent] at present
      rw [told]
      split at present
      next same => exact List.mem_cons.mpr (.inl same)
      next => exact still _ present
    | @retires i m found told =>
      have same : ({ m with shutdown := true } : Member).id = m.id := rfl
      exact ih.set found same rfl ih.coherent fun id present => still _ present

end Fleet
end DelayedJobs
