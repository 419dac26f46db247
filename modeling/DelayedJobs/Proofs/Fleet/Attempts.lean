import DelayedJobs.Proofs.Fleet.Retention
import Mathlib.Data.List.Infix

/-!
How often a job is tried. The claims of a job are numbered without a gap, a handler is started for
each, and the last call follows the number. Where no lease runs out before the last call is done,
a job is tried as often as the settings allow and no more.
-/

namespace DelayedJobs.Fleet
open Store (Request Answer)

variable {f g : Fleet} {m after : Member} {e : World.WorkerEvent} {store : MemoryStore}
  {clock : Clock} {pollers : List (WorkerId × Settings)} {events : List Event}
  {log more : List Entry} {id : Uuid}

/-- The claims of a job count up from one, in words, and bring it as it was scheduled, and the store
has it with their number. -/
structure Counted (log : List Entry) (id : Uuid) (stored : Option Job) : Prop where
  attempts : (claims log id).map (fun c => c.2.attempt) =
    (List.range' 1 (claims log id).length).reverse.map .ofNat
  scheduled : ∀ c ∈ claims log id, .scheduled id c.2.payload c.2.scheduledFor ∈ log
  stored : ∀ job, stored = some job → job.attempt = .ofNat (claims log id).length ∧
    .scheduled id job.payload job.scheduledFor ∈ log

theorem Counted.append {stored : Option Job} (h : Counted log id stored)
    (quiet : claims more id = []) : Counted (more ++ log) id stored := by
  have same : claims (more ++ log) id = claims log id := by
    rw [claims_append, quiet, List.nil_append]
  constructor
  · rw [same]
    exact h.attempts
  · rw [same]
    exact fun c member => List.mem_append_right _ (h.scheduled c member)
  · rw [same]
    exact fun job found => (h.stored job found).imp_right (List.mem_append_right _)

theorem Counted.unclaimed {stored : Option Job} (h : Counted log id stored)
    (new : id ∉ log.filterMap Entry.drawn?) : claims log id = [] :=
  List.eq_nil_iff_forall_not_mem.mpr fun c member =>
    new (List.mem_filterMap.mpr ⟨_, h.scheduled c member, rfl⟩)

theorem Counted.schedule {stored : Option Job} (h : Counted log id stored)
    (new : id ∉ log.filterMap Entry.drawn?) (payload : Payload) (due : Instant) :
    Counted ([.scheduled id payload due] ++ log) id (some (Job.new id payload due)) := by
  have unclaimed : claims ([.scheduled id payload due] ++ log) id = [] := h.unclaimed new
  refine ⟨by rw [unclaimed]; rfl, by rw [unclaimed]; exact List.forall_mem_nil _, ?_⟩
  rintro _ ⟨⟩
  rw [unclaimed]
  exact ⟨rfl, List.mem_cons_self⟩

theorem Counted.claim {job : Job} (h : Counted log id (some job)) {worker : WorkerId}
    {until_ : Instant} (claimed : claims more id = [(worker, job.leased worker until_)]) :
    Counted (more ++ log) id (some (job.leased worker until_)) := by
  obtain ⟨count, scheduled⟩ := h.stored job rfl
  have next : claims (more ++ log) id = (worker, job.leased worker until_) :: claims log id := by
    rw [claims_append, claimed, List.singleton_append]
  constructor
  · rw [next, List.map_cons, h.attempts, List.length_cons, List.range'_1_concat,
      List.reverse_append,
      List.map_append, List.reverse_singleton, List.map_singleton, Nat.add_comm 1, UInt32.ofNat_add,
      ← count]
    rfl
  · rw [next]
    refine List.forall_mem_cons.mpr ⟨List.mem_append_right _ scheduled, fun c member => ?_⟩
    exact List.mem_append_right _ (h.scheduled c member)
  · rintro _ ⟨⟩
    rw [next, List.length_cons, UInt32.ofNat_add, ← count]
    exact ⟨rfl, List.mem_append_right _ scheduled⟩

theorem Counted.since {stored : Option Job} (h : Counted log id stored) {worker : WorkerId}
    {job : Job} {happened : List Entry} (since : Since log worker job happened)
    (same : job.id = id) : job.attempt = .ofNat (claims log id).length := by
  obtain ⟨older, last⟩ := since.claims_eq
  subst same
  have attempts := h.attempts
  rw [last, List.map_cons, List.length_cons, List.range'_1_concat, List.reverse_append,
    List.map_append] at attempts
  rw [last, List.length_cons, Nat.add_comm]
  exact (List.cons.inj attempts).1

theorem Fate.counted {before stored : Option Job} (fate : Fate m more id before stored)
    (h : Counted log id before) : Counted (more ++ log) id stored := by
  cases fate with
  | stays unclaimed => exact h.append unclaimed
  | claimed _ _ claimed => exact h.claim claimed
  | @renewed job _ unclaimed =>
    have kept := h.append unclaimed
    refine ⟨kept.attempts, kept.scheduled, ?_⟩
    rintro _ ⟨⟩
    exact kept.stored job rfl
  | @settled job snapshot call _ _ _ served =>
    have unclaimed : claims more id = [] := by rw [served, claims_settled]
    have kept := h.append unclaimed
    refine ⟨kept.attempts, kept.scheduled, ?_⟩
    cases call with
    | complete | forget => simp [Store.Request.outcome, Poller.Finalization.request]
    | retry due =>
      rintro _ ⟨⟩
      exact kept.stored job rfl

theorem Reaches.counted (h : Reaches (start clock pollers) events log f)
    (distinct : (pollers.map Prod.fst).Nodup) (id : Uuid) : Counted log id (f.store.get? id) := by
  induction h with
  | nil => exact ⟨rfl, List.forall_mem_nil _, fun _ found => nomatch found⟩
  | @snoc _ log f _ _ before fresh step ih =>
    have steady := before.steady distinct
    cases moves_of_step step with
    | waits _ told | retires _ told =>
      rw [told]
      exact ih
    | acts _ moves told =>
      rw [told]
      exact ((acts_of_step steady.coherent moves).fate steady.coherent id).counted ih
    | @schedules id' payload due told =>
      have new := fresh id' rfl
      rw [told]
      dsimp only
      rw [MemoryStore.get?_schedule payload due (steady.fresh new)]
      split
      next same =>
        subst same
        exact ih.schedule new payload due
      next => exact ih.append rfl

theorem Acts.starts {q : Poller.Phase} (acts : f.Acts m e q store more) :
    more.filterMap Entry.start? = more.filterMap Entry.claim? := by
  cases acts with
  | looks _ _ _ aside | turns _ _ aside | renews _ _ aside =>
    have nothing := fun x hx => Entry.none_of_isAside (aside x hx)
    rw [List.filterMap_eq_nil_iff.mpr fun x hx => (nothing x hx).1,
      List.filterMap_eq_nil_iff.mpr fun x hx => (nothing x hx).2]
  | @settles job call => cases call <;> rfl
  | takes | ends | sees | leaves | decides | drops => rfl

theorem Reaches.starts (h : Reaches (start clock pollers) events log f)
    (distinct : (pollers.map Prod.fst).Nodup) :
    log.filterMap Entry.start? = log.filterMap Entry.claim? := by
  induction h with
  | nil => rfl
  | snoc before fresh step ih =>
    rw [List.filterMap_append, List.filterMap_append, ih]
    congr 1
    cases moves_of_step step with
    | waits _ told | schedules told | retires _ told =>
      rw [told]
      rfl
    | acts _ moves told =>
      rw [told]
      exact (acts_of_step (before.steady distinct).coherent moves).starts

/-! The last calls. -/

theorem Acts.of_called {q : Poller.Phase} (acts : f.Acts m e q store more) {worker : WorkerId}
    {job : Job} {call : Poller.Finalization} (called : .did worker (.called job call) ∈ more) :
    worker = m.id ∧ ∃ run, m.loop = .running run ∧ run.job = job ∧ run.finished = true ∧
      call = Poller.finalization m.settings f.instant job (run.result == some .ok) := by
  cases acts with
  | looks _ _ _ aside | turns _ _ aside | renews _ _ aside => cases aside _ called
  | @decides run call running finished fits =>
    obtain ⟨⟩ := List.mem_singleton.mp called
    exact ⟨rfl, run, running, rfl, finished, fits⟩
  | takes | ends | sees | leaves | settles | drops => simp at called

/-- A last call for a job that its worker has claimed, after some end of the handler. -/
def Fits (pollers : List (WorkerId × Settings)) (log : List Entry) (worker : WorkerId) (job : Job)
    (call : Poller.Finalization) : Prop :=
  (worker, job) ∈ claims log job.id ∧ ∃ raw r instant, (worker, raw) ∈ pollers ∧
    call = Poller.finalization raw.clamped instant job (some r == some Poller.HandlerResult.ok)

theorem Acts.fits {q : Poller.Phase} (acts : f.Acts m e q store more) (minds : Minds log f m)
    (steady : f.Steady pollers log) (member : m ∈ f.members) {worker : WorkerId} {job : Job}
    {call : Poller.Finalization} (called : .did worker (.called job call) ∈ more) :
    Fits pollers log worker job call := by
  obtain ⟨rfl, run, running, rfl, finished, fits⟩ := acts.of_called called
  rw [Minds, running] at minds
  obtain ⟨claimed, answered, -⟩ := minds
  obtain ⟨r, ended⟩ := Option.isSome_iff_exists.mp (answered finished)
  obtain ⟨raw, poller, clamped⟩ := steady.settings m member
  rw [ended, clamped] at fits
  exact ⟨claimed, raw, r, f.instant, poller, fits⟩

theorem Reaches.fits (h : Reaches (start clock pollers) events log f)
    (distinct : (pollers.map Prod.fst).Nodup) {worker : WorkerId} {job : Job}
    {call : Poller.Finalization} (called : .did worker (.called job call) ∈ log) :
    Fits pollers log worker job call := by
  induction h with
  | nil => cases called
  | @snoc _ log f e _ before fresh step ih =>
    suffices Fits pollers log worker job call from
      ⟨mem_claims_append this.1 (f.entries e), this.2⟩
    obtain now | known := List.mem_append.mp called
    · cases moves_of_step step with
      | waits _ told | schedules told | retires _ told =>
        rw [told] at now
        simp at now
      | @acts i m after event store found moves told =>
        rw [told] at now
        have steady := before.steady distinct
        have member := List.mem_of_getElem? found
        exact (acts_of_step steady.coherent moves).fits (before.minds distinct m member) steady
          member now
    · exact ih known

/-! Jobs whose leases last until the last call is done. -/

/-- Whenever a worker holds the job its lease has not run out, the last calls for the job are done,
and no renewal is denied unasked. -/
structure Undisturbed (start : Fleet) (events : List Event) (id : Uuid) : Prop where
  leases : ∀ before f, before <+: events → start.run? before = some f →
    ∀ job, f.store.get? id = some job → job.claimedBy ≠ none → f.instant < job.invisibleUntil
  calls : ∀ worker job call, .did worker (.dropped job call) ∈ start.chronicle events → job.id ≠ id
  renewals : ∀ i, .member i (.renewalReturns .denied) ∉ events

/-- The member has the job in process and has not given it up as lost. -/
def Attends (m : Member) (id : Uuid) : Prop :=
  (∃ run, m.loop = .running run ∧ run.job.id = id ∧ run.lease.hijacked = false) ∨
    ∃ job call, m.loop = .finalizing job call ∧ job.id = id

theorem Attends.job? (h : Attends m id) : ∃ job, m.loop.job? = some job ∧ job.id = id := by
  obtain ⟨run, running, same, -⟩ | ⟨job, call, finalizing, same⟩ := h
  · exact ⟨run.job, by rw [running]; rfl, same⟩
  · exact ⟨job, by rw [finalizing]; rfl, same⟩

theorem Attends.of_running (h : Attends m id) {run : Poller.Run} (running : m.loop = .running run) :
    run.job.id = id ∧ run.lease.hijacked = false := by
  obtain ⟨run', running', same, held⟩ | ⟨job, call, finalizing, -⟩ := h
  · cases running.symm.trans running'
    exact ⟨same, held⟩
  · cases running.symm.trans finalizing

theorem Attends.of_finalizing (h : Attends m id) {job : Job} {call : Poller.Finalization}
    (finalizing : m.loop = .finalizing job call) : job.id = id := by
  obtain ⟨run, running, -, -⟩ | ⟨job', call', finalizing', same⟩ := h
  · cases finalizing.symm.trans running
  · cases finalizing.symm.trans finalizing'
    exact same

theorem Fate.owned {before stored : Option Job} (fate : Fate m more id before stored)
    {worker : WorkerId} (owner : stored.bind Job.claimedBy = some worker)
    (unclaimed : claims more id = []) : before.bind Job.claimedBy = some worker := by
  cases fate with
  | stays | renewed => exact owner
  | claimed _ _ claimed => cases claimed.symm.trans unclaimed
  | @settled _ _ call => cases call <;> cases owner

theorem Acts.attends {q : Poller.Phase} (acts : f.Acts m e q store more)
    (coherent : f.store.Coherent) (renewed : e ≠ .renewalReturns .denied)
    (called : ∀ job call, .did m.id (.dropped job call) ∈ more → job.id ≠ id)
    (before : f.store.owner? id = some m.id → Attends m id) (loop : after.loop = q)
    (owner : store.owner? id = some m.id) : Attends after id := by
  have owned := (acts.fate coherent id).owned owner
  rw [Attends, loop]
  cases acts with
  | looks free =>
    obtain ⟨job, busy, -⟩ := (before owner).job?
    cases free.symm.trans busy
  | @takes _ _ job _ claiming =>
    by_cases same : job.id = id
    · exact .inl ⟨_, rfl, same, rfl⟩
    · obtain ⟨job, busy, -⟩ := (before (owned ((claims_taken ..).trans (if_neg same)))).job?
      rw [claiming] at busy
      cases busy
  | ends running | sees running =>
    obtain ⟨same, held⟩ := (before owner).of_running running
    exact .inl ⟨_, rfl, same, held⟩
  | turns running held =>
    obtain ⟨same, -⟩ := (before owner).of_running running
    exact .inl ⟨_, rfl, same, Bool.eq_false_iff.mpr (renewed ∘ held)⟩
  | renews running held aside =>
    have owner := owned (claims_of_aside aside id)
    obtain ⟨rfl, -⟩ := (before owner).of_running running
    exact .inl ⟨_, rfl, rfl, Bool.eq_false_iff.mpr fun lost => held lost owner⟩
  | leaves running lost =>
    obtain ⟨-, held⟩ := (before owner).of_running running
    cases lost.symm.trans held
  | decides running =>
    obtain ⟨same, -⟩ := (before owner).of_running running
    exact .inr ⟨_, _, rfl, same⟩
  | @settles job call finalizing =>
    obtain rfl := (before (owned (claims_settled id))).of_finalizing finalizing
    -- The owner's last call leaves no owner.
    obtain ⟨-, -, held, -, outcome⟩ | ⟨other, -⟩ :=
      coherent.apply_of_caller (caller?_request call m.id job)
    · rw [MemoryStore.owner?, outcome, if_pos rfl] at owner
      cases call <;> cases owner
    · exact absurd (owned (claims_settled job.id)) other
  | drops finalizing =>
    exact absurd ((before owner).of_finalizing finalizing) (called _ _ List.mem_cons_self)

/-- A job is attended to by its owner; while it has none, it may be tried again; and it has not been
tried too often. -/
structure Paced (limit : UInt32) (log : List Entry) (f : Fleet) (id : Uuid) : Prop where
  attended : ∀ worker, f.store.owner? id = some worker →
    ∃ m ∈ f.members, m.id = worker ∧ Attends m id
  left : ∀ job, f.store.get? id = some job → job.claimedBy = none →
    (claims log id).length < limit.toNat
  tried : (claims log id).length ≤ limit.toNat

theorem Undisturbed.of_append {start : Fleet} {rest : List Event}
    (h : Undisturbed start (events ++ rest) id) (run : start.run? events = some f) :
    Undisturbed start events id where
  leases before g early := h.leases before g (early.trans (List.prefix_append events rest))
  calls worker job call dropped := by
    refine h.calls worker job call ?_
    rw [chronicle_append run]
    exact List.mem_append_right _ dropped
  renewals i denied := h.renewals i (List.mem_append_left _ denied)

theorem unowned_of_due {now until_ : Instant} {job : Job} (minds : Minds log f m)
    (claiming : m.loop = .claiming now until_) (due : job.invisibleUntil ≤ now)
    (lasts : job.claimedBy ≠ none → f.instant < job.invisibleUntil) : job.claimedBy = none := by
  by_contra owned
  rw [Minds, claiming] at minds
  exact Int.not_le.mpr (lasts owned) (Int.le_trans due minds)

theorem toNat_ofNat_of_le {n : Nat} {limit : UInt32} (h : n ≤ limit.toNat) :
    (UInt32.ofNat n).toNat = n :=
  UInt32.toNat_ofNat_of_lt' (Nat.lt_of_le_of_lt h limit.toNat_lt_size)

theorem Minds.left {stored : Option Job} (h : Minds log f m) (counted : Counted log id stored)
    (tried : (claims log id).length ≤ m.settings.retryLimit.toNat) {snapshot : Job} {due : Instant}
    (finalizing : m.loop = .finalizing snapshot (.retry due))
    (owner : f.store.owner? snapshot.id = some m.id) (same : snapshot.id = id) :
    (claims log id).length < m.settings.retryLimit.toNat := by
  rw [Minds, finalizing] at h
  obtain ⟨-, r, instant, fits, since⟩ := h
  obtain ⟨-, retries, -⟩ := Poller.finalization_kind m.settings instant snapshot r
  rw [← fits] at retries
  have sooner := UInt32.lt_iff_toNat_lt.mp (retries.mp ⟨due, rfl⟩).2
  rwa [counted.since (since owner) same, toNat_ofNat_of_le tried] at sooner

theorem Fate.tries {before stored : Option Job} (fate : Fate m more id before stored)
    (found : f.store.get? id = before) (minds : Minds log f m)
    (counted : Counted log id before)
    (lasts : ∀ job, before = some job → job.claimedBy ≠ none → f.instant < job.invisibleUntil)
    (left : ∀ job, before = some job → job.claimedBy = none →
      (claims log id).length < m.settings.retryLimit.toNat)
    (tried : (claims log id).length ≤ m.settings.retryLimit.toNat) :
    (∀ job, stored = some job → job.claimedBy = none →
      (claims (more ++ log) id).length < m.settings.retryLimit.toNat) ∧
      (claims (more ++ log) id).length ≤ m.settings.retryLimit.toNat := by
  rw [claims_append]
  cases fate with
  | stays unclaimed =>
    rw [unclaimed]
    exact ⟨left, tried⟩
  | @claimed job now until_ claiming due claimed =>
    rw [claimed, List.singleton_append, List.length_cons]
    exact ⟨by rintro _ ⟨⟩ ⟨⟩, left job rfl (unowned_of_due minds claiming due (lasts job rfl))⟩
  | @renewed job _ unclaimed owner =>
    rw [unclaimed]
    refine ⟨?_, tried⟩
    rintro _ ⟨⟩ free
    cases owner.symm.trans free
  | @settled job snapshot call finalizing same owner served =>
    rw [served, claims_settled]
    refine ⟨?_, tried⟩
    cases call with
    | complete | forget => simp [Store.Request.outcome, Poller.Finalization.request]
    | retry due =>
      rintro _ ⟨⟩ -
      have holds : f.store.owner? snapshot.id = some m.id := by
        rw [MemoryStore.owner?, same, found, Option.bind_some, owner]
      exact minds.left counted tried finalizing holds same

theorem attended_set {members : List Member} {i : Nat} (found : members[i]? = some m)
    (same : after.id = m.id) {worker : WorkerId}
    (h : ∃ other ∈ members, other.id = worker ∧ Attends other id)
    (own : m.id = worker → Attends m id → Attends after id) :
    ∃ other ∈ members.set i after, other.id = worker ∧ Attends other id := by
  obtain ⟨other, member, rfl, attends⟩ := h
  obtain ⟨k, at_k⟩ := List.mem_iff_getElem?.mp member
  by_cases here : i = k
  · subst here
    cases at_k.symm.trans found
    have inside := (List.getElem?_eq_some_iff.mp found).1
    exact ⟨after, List.mem_set inside after, same, own rfl attends⟩
  · exact ⟨other, List.mem_of_getElem? ((List.getElem?_set_ne here).trans at_k), rfl, attends⟩

theorem Paced.acts {limit : UInt32} (h : Paced limit log f id) {i : Nat}
    (found : f.members[i]? = some m) {q : Poller.Phase} (acts : f.Acts m e q store more)
    (same : after.id = m.id) (loop : after.loop = q) (steady : f.Steady pollers log)
    (minds : Minds log f m) (limited : m.settings.retryLimit = limit)
    (counted : Counted log id (f.store.get? id)) (renewed : e ≠ .renewalReturns .denied)
    (called : ∀ job call, .did m.id (.dropped job call) ∈ more → job.id ≠ id)
    (lasts : ∀ job, f.store.get? id = some job → job.claimedBy ≠ none →
      f.instant < job.invisibleUntil) :
    Paced limit (more ++ log) { f with members := f.members.set i after, store } id := by
  have fate := acts.fate steady.coherent id
  subst limited
  obtain ⟨left, tried⟩ := fate.tries rfl minds counted lasts h.left h.tried
  refine ⟨fun worker owner => ?_, left, tried⟩
  by_cases own : worker = m.id
  · subst own
    have inside := (List.getElem?_eq_some_iff.mp found).1
    refine ⟨after, List.mem_set inside after, same, ?_⟩
    refine acts.attends steady.coherent renewed called (fun owner => ?_) loop owner
    obtain ⟨other, member, same, attends⟩ := h.attended m.id owner
    obtain rfl :=
      List.inj_on_of_nodup_map steady.distinct member (List.mem_of_getElem? found) same
    exact attends
  · exact attended_set found same (h.attended worker (fate.owner own owner).1)
      fun here => absurd here.symm own

theorem Reaches.paced (h : Reaches (start clock pollers) events log f)
    (distinct : (pollers.map Prod.fst).Nodup) {limit : UInt32} (positive : 0 < limit.toNat)
    (limited : ∀ p ∈ pollers, p.2.clamped.retryLimit = limit)
    (undisturbed : Undisturbed (start clock pollers) events id) : Paced limit log f id := by
  induction h with
  | nil =>
    exact ⟨fun _ owner => (nomatch owner), fun _ found => (nomatch found), Nat.zero_le _⟩
  | @snoc events log f e _ before fresh step ih =>
    have steady := before.steady distinct
    have counted := before.counted distinct id
    have paced := ih (undisturbed.of_append before.run)
    cases moves_of_step step with
    | waits _ told =>
      rw [told]
      exact ⟨paced.attended, paced.left, paced.tried⟩
    | @acts i m after event store found moves told =>
      have member := List.mem_of_getElem? found
      have acts := acts_of_step steady.coherent moves
      obtain ⟨raw, poller, clamped⟩ := steady.settings m member
      rw [← told] at acts
      refine paced.acts found acts (settings_stepMember moves).1 rfl steady
        (before.minds distinct m member) ?_ counted ?_ ?_ ?_
      · rw [clamped]
        exact limited _ poller
      · rintro rfl
        exact undisturbed.renewals i (List.mem_append_right _ List.mem_cons_self)
      · intro job call dropped
        refine undisturbed.calls m.id job call ?_
        rw [chronicle_snoc before.run step]
        exact List.mem_append_left _ dropped
      · exact undisturbed.leases events f (List.prefix_append _ _) before.run
    | @schedules id' payload due told =>
      have new := fresh id' rfl
      rw [told]
      refine ⟨fun worker owner => ?_, fun job found => ?_, ?_⟩
      · rw [MemoryStore.owner?_schedule payload due (steady.fresh new)] at owner
        exact paced.attended worker owner
      · rw [MemoryStore.get?_schedule payload due (steady.fresh new)] at found
        split at found
        next same =>
          intro _
          -- The identifier is new, so no claim has brought it.
          have unclaimed : claims log id = [] := counted.unclaimed (same ▸ new)
          exact Nat.lt_of_le_of_lt (Nat.le_of_eq (congrArg List.length unclaimed)) positive
        next => exact paced.left job found
      · exact paced.tried
    | @retires i m found told =>
      rw [told]
      have same : ({ m with shutdown := true } : Member).id = m.id := rfl
      refine ⟨fun worker owner => ?_, paced.left, paced.tried⟩
      exact attended_set found same (paced.attended worker owner) fun _ attends => attends

/-! Jobs that always fail. -/

/-- The worker of the claim with number `limit` has run the handler, which failed, and has forgotten
the job, and no claim has brought it since. -/
def Forgotten (limit : UInt32) (log : List Entry) (id : Uuid) : Prop :=
  ∃ newer worker job now older r,
    log = newer ++ .served worker (.forget worker job now) .done :: older ∧
    job.id = id ∧ job.attempt = limit ∧ (claims older id).length = limit.toNat ∧
      claims newer id = [] ∧
    Since older worker job [.did worker (.called job (.forget now)), .did worker (.ended job r)] ∧
    r ≠ .ok

theorem Finished.forgotten {limit : UInt32} {stored : Option Job} (h : Finished pollers log id)
    (counted : Counted log id stored) (tried : (claims log id).length ≤ limit.toNat)
    (limited : ∀ p ∈ pollers, p.2.clamped.retryLimit = limit)
    (failed : ∀ worker job, .did worker (.ended job .ok) ∈ log → job.id ≠ id) :
    Forgotten limit log id := by
  obtain ⟨newer, worker, job, call, older, raw, r, rfl, rfl, unclaimed, poller, since, fits⟩ := h
  have quiet : claims (newer ++ [.served worker (call.request worker job) .done]) job.id = [] := by
    rw [claims_append, unclaimed, claims_settled, List.append_nil]
  have same : claims (newer ++ .served worker (call.request worker job) .done :: older) job.id =
      claims older job.id := by
    rw [List.append_cons, claims_append, quiet, List.nil_append]
  have attempt : job.attempt = .ofNat (claims older job.id).length := by
    rw [List.append_cons] at counted
    rw [counted.since (since.append quiet) rfl, claims_append, quiet, List.nil_append]
  rw [same] at tried
  obtain ⟨rfl, -⟩ | ⟨failure, last, now, rfl⟩ := fits
  · have ended := since.mem (List.mem_cons_of_mem _ List.mem_cons_self)
    refine absurd rfl (failed worker job ?_)
    exact List.mem_append_right newer (List.mem_cons_of_mem _ ended)
  · rw [limited _ poller, attempt, UInt32.le_iff_toNat_le, toNat_ofNat_of_le tried] at last
    have full := Nat.le_antisymm tried last
    have counted : job.attempt = limit := by rw [attempt, full, UInt32.ofNat_toNat]
    exact ⟨newer, worker, job, now, older, r, rfl, rfl, counted, full, unclaimed, since, failure⟩

theorem retryLimit_pos (raw : Settings) : 0 < raw.clamped.retryLimit.toNat := by
  change 0 < (if raw.retryLimit ≤ 1 then (1 : UInt32) else raw.retryLimit).toNat
  split
  · decide
  next more =>
    have above := mt UInt32.le_iff_toNat_le.mpr more
    exact Nat.lt_of_lt_of_le Nat.zero_lt_one (Nat.le_of_not_le above)

theorem Paced.gone {limit : UInt32} (h : Paced limit log f id)
    (last : (claims log id).length = limit.toNat)
    (idle : ∀ m ∈ f.members, ∀ job, m.loop.job? = some job → job.id ≠ id) :
    f.store.get? id = none := by
  by_contra present
  obtain ⟨job, found⟩ := Option.ne_none_iff_exists'.mp present
  cases owner : job.claimedBy with
  | none => exact Nat.ne_of_lt (h.left job found owner) last
  | some worker =>
    have holds : f.store.owner? id = some worker := by
      rw [MemoryStore.owner?, found, Option.bind_some, owner]
    obtain ⟨m, member, -, attends⟩ := h.attended worker holds
    obtain ⟨held, busy, same⟩ := attends.job?
    exact idle m member held busy same

/-- In every run of workers with the same settings: the claims of a job count up from one, in words
of 32 bits, and bring it as it was scheduled; a handler is started for each of them; and a job is
given back while its number is below the limit, and else forgotten. A job whose leases last until
the last calls are done is tried at most as often as the limit says; if every try fails it is
forgotten in the last one, and no claim brings it any more. -/
theorem tries_counted {workers : List WorkerId} (distinct : workers.Nodup) (raw : Settings)
    (drawn : (events.filterMap Event.drawn?).Nodup)
    (run : (start clock (workers.map (·, raw))).run? events = some f) :
    let log := (start clock (workers.map (·, raw))).chronicle events
    let limit := raw.clamped.retryLimit
    (∀ id, (claims log id).map (fun c => c.2.attempt) =
        (List.range' 1 (claims log id).length).reverse.map .ofNat ∧
      ∀ c ∈ claims log id, .scheduled id c.2.payload c.2.scheduledFor ∈ log) ∧
    log.filterMap Entry.start? = log.filterMap Entry.claim? ∧
    (∀ worker job call, .did worker (.called job call) ∈ log →
      ((∃ due, call = .retry due) → job.attempt < limit) ∧
      ((∃ now, call = .forget now) → limit ≤ job.attempt)) ∧
    ∀ id payload due, .scheduled id payload due ∈ log →
      Undisturbed (start clock (workers.map (·, raw))) events id →
      (claims log id).length ≤ limit.toNat ∧
      ((∀ worker job, .did worker (.ended job .ok) ∈ log → job.id ≠ id) →
        (f.store.get? id = none ∨ ((claims log id).length = limit.toNat ∧
          ∀ m ∈ f.members, ∀ job, m.loop.job? = some job → job.id ≠ id)) →
        f.store.get? id = none ∧ Forgotten limit log id) := by
  intro log limit
  have reaches : Reaches (start clock (workers.map (·, raw))) events log f :=
    reaches_of_run run drawn
  have distinct : ((workers.map (·, raw)).map Prod.fst).Nodup := by simpa [Function.comp_def]
  have limited : ∀ p ∈ workers.map (·, raw), p.2.clamped.retryLimit = limit := by simp [limit]
  refine ⟨fun id => ?_, reaches.starts distinct, fun worker job call called => ?_,
    fun id payload due scheduled undisturbed => ?_⟩
  · have counted := reaches.counted distinct id
    exact ⟨counted.attempts, counted.scheduled⟩
  · obtain ⟨-, settings, r, instant, poller, fits⟩ := reaches.fits distinct called
    obtain ⟨-, retries, forgets⟩ := Poller.finalization_kind settings.clamped instant job r
    rw [← fits, limited _ poller] at retries forgets
    exact ⟨fun retry => (retries.mp retry).2, fun forget => (forgets.mp forget).2⟩
  · have counted := reaches.counted distinct id
    have paced := reaches.paced distinct (retryLimit_pos raw) limited undisturbed
    refine ⟨paced.tried, fun failed ended => ?_⟩
    have gone : f.store.get? id = none := by
      obtain gone | ⟨last, idle⟩ := ended
      · exact gone
      · exact paced.gone last idle
    obtain ⟨job, found, -⟩ | ⟨-, finished⟩ := reaches.accounted distinct scheduled
    · cases gone.symm.trans found
    · exact ⟨gone, finished.forgotten counted paced.tried limited failed⟩

def twoFailures : List Event :=
  let try_ (i : Nat) (r : Poller.HandlerResult) : List Event :=
    [.go, .claimReturns .done, .handlerEnds r, .finish, .leaseFinishes, .conclude,
      .finalizeReturns .done].map (.member i)
  .schedule (.ofNat 1) ⟨"mail", .null⟩ .epoch :: try_ 0 .failed ++
    .advance 40000000000 :: try_ 1 .panicked

def Entry.isDrop : Entry → Bool
  | .did _ (.dropped _ _) => true
  | _ => false

def Entry.isSuccess : Entry → Bool
  | .did _ (.ended _ .ok) => true
  | _ => false

theorem twoFailures_forget :
    let fleet := start ⟨.epoch⟩ ([⟨.ofNat 7⟩, ⟨.ofNat 8⟩].map (·, { retryLimit := 2 }))
    ∃ f, fleet.run? twoFailures = some f ∧ Undisturbed fleet twoFailures (.ofNat 1) ∧
      f.store.get? (.ofNat 1) = none ∧ Forgotten 2 (fleet.chronicle twoFailures) (.ofNat 1) := by
  intro fleet
  have through : (fleet.run? twoFailures).any
      (fun f => (f.store.get? (.ofNat 1)).isNone) = true := by decide +kernel
  obtain ⟨f, run, absent⟩ := (Option.any_eq_true _ _).mp through
  have gone : f.store.get? (.ofNat 1) = none := Option.isNone_iff_eq_none.mp absent
  have scheduled : .scheduled (.ofNat 1) ⟨"mail", .null⟩ .epoch ∈ fleet.chronicle twoFailures :=
    List.mem_append_right _ List.mem_cons_self
  have failed : ∀ worker job, .did worker (.ended job .ok) ∈ fleet.chronicle twoFailures →
      job.id ≠ .ofNat 1 := by
    have nothing : ¬(fleet.chronicle twoFailures).any Entry.isSuccess = true := by decide +kernel
    exact fun _ _ ended => absurd (List.any_eq_true.mpr ⟨_, ended, rfl⟩) nothing
  have undisturbed : Undisturbed fleet twoFailures (.ofNat 1) := by
    refine ⟨?_, ?_, ?_⟩
    · have lasts : twoFailures.inits.all (fun events => (fleet.run? events).all fun f =>
          (f.store.get? (.ofNat 1)).all fun job =>
            job.claimedBy.isNone || decide (f.instant < job.invisibleUntil)) = true := by
        decide +kernel
      intro before g early reached job found owned
      have here := List.all_eq_true.mp lasts before ((List.mem_inits _ _).mpr early)
      rw [reached, Option.all_some, found, Option.all_some, Bool.or_eq_true] at here
      exact of_decide_eq_true (here.resolve_left (by simpa using owned))
    · have nothing : ¬(fleet.chronicle twoFailures).any Entry.isDrop = true := by decide +kernel
      exact fun _ _ _ dropped => absurd (List.any_eq_true.mpr ⟨_, dropped, rfl⟩) nothing
    · simp [twoFailures]
  refine ⟨f, run, undisturbed, ?_⟩
  exact ((tries_counted (by decide) _ (by decide) run).2.2.2 _ _ _ scheduled undisturbed).2 failed
    (.inl gone)

end DelayedJobs.Fleet
