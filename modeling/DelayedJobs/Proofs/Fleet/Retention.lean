import DelayedJobs.Proofs.Fleet.Chronicle
import DelayedJobs.Proofs.Time.Saturation

/-!
No job is lost. A worker that holds a job is the one whose claim of it came last, and its phase
agrees with what it has done since. Only a last call of the holder takes a job out of the store, so
what was scheduled is there until its handler has ended as that call says.
-/

namespace DelayedJobs.Fleet
open Store (Request Answer)

/-- The last claim of a job was by that worker, and the entries listed have followed, in order. -/
def Since (log : List Entry) (worker : WorkerId) (job : Job) (happened : List Entry) : Prop :=
  ∃ recent now until_ older,
    log = recent ++ .served worker (.claim worker now until_) (.claimed (some job)) :: older ∧
    claims recent job.id = [] ∧ happened.Sublist recent

def Minds (log : List Entry) (f : Fleet) (m : Member) : Prop :=
  match m.loop with
  | .claiming now _ => now ≤ f.instant
  | .running run => (m.id, run.job) ∈ claims log run.job.id ∧
      (run.finished = true → run.result.isSome = true) ∧
      (f.store.owner? run.job.id = some m.id → Since log m.id run.job
        (run.result.map fun r => .did m.id (.ended run.job r)).toList)
  | .finalizing job call => (m.id, job) ∈ claims log job.id ∧
      ∃ r instant, call = Poller.finalization m.settings instant job
          (some r == some Poller.HandlerResult.ok) ∧
        (f.store.owner? job.id = some m.id → Since log m.id job
          [.did m.id (.called job call), .did m.id (.ended job r)])
  | _ => True

variable {f g : Fleet} {m after : Member} {e : World.WorkerEvent} {store : MemoryStore}
  {clock : Clock} {pollers : List (WorkerId × Settings)} {events : List Event}
  {log more : List Entry} {worker : WorkerId} {job : Job} {happened : List Entry}

theorem Since.append (h : Since log worker job happened) (quiet : claims more job.id = []) :
    Since (more ++ log) worker job happened := by
  obtain ⟨recent, now, until_, older, rfl, unclaimed, order⟩ := h
  refine ⟨more ++ recent, now, until_, older, by rw [List.append_assoc], ?_,
    order.trans (List.sublist_append_right more recent)⟩
  rw [claims_append, quiet, unclaimed, List.append_nil]

theorem Since.cons (h : Since log worker job happened) (d : Poller.Deed) (w : WorkerId) :
    Since (.did w d :: log) worker job (.did w d :: happened) := by
  obtain ⟨recent, now, until_, older, rfl, unclaimed, order⟩ := h
  exact ⟨.did w d :: recent, now, until_, older, rfl, unclaimed, order.cons_cons _⟩

theorem Since.mem (h : Since log worker job happened) {x : Entry} (member : x ∈ happened) :
    x ∈ log := by
  obtain ⟨recent, now, until_, older, rfl, -, order⟩ := h
  exact List.mem_append_left _ (order.subset member)

theorem Since.claims_eq (h : Since log worker job happened) :
    ∃ older, claims log job.id = (worker, job) :: older := by
  obtain ⟨recent, now, until_, older, rfl, unclaimed, -⟩ := h
  refine ⟨claims older job.id, ?_⟩
  rw [claims_append, unclaimed, List.nil_append]
  simp [claims, Entry.claim?]

theorem Fate.owner {id : Uuid} {before after : Option Job} (h : Fate m more id before after)
    (other : worker ≠ m.id) (owner : after.bind Job.claimedBy = some worker) :
    before.bind Job.claimedBy = some worker ∧ claims more id = [] := by
  cases h with
  | stays unclaimed => exact ⟨owner, unclaimed⟩
  | claimed => exact absurd (Option.some.inj owner).symm other
  | renewed unclaimed held => exact ⟨owner, unclaimed⟩
  | @settled _ _ call finalizing same held served =>
    cases call <;> cases owner

theorem Fate.owner_of_running {id : Uuid} {before after : Option Job}
    (h : Fate m more id before after) {run : Poller.Run} (running : m.loop = .running run) :
    after.bind Job.claimedBy = before.bind Job.claimedBy ∧ claims more id = [] := by
  cases h with
  | stays unclaimed => exact ⟨rfl, unclaimed⟩
  | renewed unclaimed owner => exact ⟨rfl, unclaimed⟩
  | claimed claiming => cases running.symm.trans claiming
  | settled finalizing => cases running.symm.trans finalizing

theorem Minds.append (h : Minds log f m) (later : f.instant ≤ g.instant)
    (owner : ∀ id, g.store.owner? id = some m.id →
      f.store.owner? id = some m.id ∧ claims more id = []) : Minds (more ++ log) g m := by
  unfold Minds at h ⊢
  split at h
  · exact Int.le_trans h later
  · obtain ⟨claimed, answered, since⟩ := h
    refine ⟨mem_claims_append claimed more, answered, fun held => ?_⟩
    obtain ⟨held, quiet⟩ := owner _ held
    exact (since held).append quiet
  · obtain ⟨claimed, r, instant, fits, since⟩ := h
    refine ⟨mem_claims_append claimed more, r, instant, fits, fun held => ?_⟩
    obtain ⟨held, quiet⟩ := owner _ held
    exact (since held).append quiet
  · trivial

theorem Minds.acts (h : Minds log f m) (coherent : f.store.Coherent) {q : Poller.Phase}
    (acts : f.Acts m e q store more) (settings : after.settings = m.settings) (id : after.id = m.id)
    (loop : after.loop = q) : Minds (more ++ log) { f with store } after := by
  -- While the job is in process and the handler does not end, only the lease changes.
  have still {run : Poller.Run} (running : m.loop = .running run) :
      Minds (more ++ log) { f with store } m := by
    refine h.append (g := { f with store }) (Int.le_refl _) fun id owner => ?_
    obtain ⟨same, quiet⟩ := (acts.fate coherent id).owner_of_running running
    exact ⟨same.symm.trans owner, quiet⟩
  unfold Minds at h still ⊢
  rw [loop, id, settings]
  cases acts with
  | looks free still asks aside =>
    cases q with
    | claiming now until_ => exact Int.le_of_eq (congrArg Instant.nanos (asks now until_ rfl))
    | running | finalizing => cases still
    | checking | resting | stopped | panicked => trivial
  | @takes now until_ job _ claiming takes =>
    refine ⟨?_, nofun, fun _ => ⟨[.did m.id (.started job)], now, until_, log, rfl, rfl,
      List.nil_sublist _⟩⟩
    rw [claims_append, claims_taken, if_pos rfl]
    exact List.mem_append_left _ List.mem_cons_self
  | ends running working =>
    rw [running] at h
    obtain ⟨claimed, answered, since⟩ := h
    rw [working] at since
    exact ⟨claimed, fun _ => rfl, fun held => (since held).cons _ m.id⟩
  | sees running ended =>
    rw [running] at h
    exact ⟨h.1, fun _ => ended, h.2.2⟩
  | turns running | renews running =>
    have same := still running
    rw [running] at same
    exact same
  | leaves => trivial
  | decides running finished fits =>
    rw [running] at h
    obtain ⟨claimed, answered, since⟩ := h
    obtain ⟨r, ended⟩ := Option.isSome_iff_exists.mp (answered finished)
    rw [ended] at since fits
    exact ⟨claimed, r, f.instant, fits, fun held => (since held).cons _ m.id⟩
  | settles => trivial
  | drops finalizing idle asks =>
    cases q with
    | claiming now until_ => exact absurd rfl (asks now until_)
    | running | finalizing => cases idle
    | checking | resting | stopped | panicked => trivial

theorem instant_mono {now later : Nat} (h : now ≤ later) :
    ({ f with now } : Fleet).instant ≤ ({ f with now := later } : Fleet).instant := by
  rw [Instant.le_iff]
  simp only [instant, Clock.nanos_read, Lease.elapsed, Duration.nanos_ofNanos]
  omega

theorem Reaches.minds (h : Reaches (start clock pollers) events log f)
    (distinct : (pollers.map Prod.fst).Nodup) : ∀ m ∈ f.members, Minds log f m := by
  induction h with
  | nil =>
    intro m member
    obtain ⟨poller, -, rfl⟩ := List.mem_map.mp member
    trivial
  | @snoc _ log f _ _ before fresh step ih =>
    have steady := before.steady distinct
    cases moves_of_step step with
    | waits later told =>
      rw [told]
      exact fun m member => (ih m member).append (instant_mono later) fun id owner => ⟨owner, rfl⟩
    | @acts i m after event store found moves told =>
      have acts := acts_of_step steady.coherent moves
      rw [← told] at acts
      obtain ⟨id, settings⟩ := settings_stepMember moves
      intro other member
      obtain rfl | ⟨member, ne⟩ := mem_set steady.distinct found member
      · exact (ih m (List.mem_of_getElem? found)).acts steady.coherent acts settings id rfl
      · refine (ih other member).append (Int.le_refl _) fun id owner => ?_
        exact (acts.fate steady.coherent id).owner ne owner
    | @schedules id payload due told =>
      have absent := steady.fresh (fresh id rfl)
      intro m member
      rw [told]
      refine (ih m member).append (Int.le_refl _) fun other owner => ⟨?_, rfl⟩
      rwa [MemoryStore.owner?_schedule payload due absent] at owner
    | @retires i m found told =>
      rw [told]
      intro other member
      obtain rfl | ⟨member, -⟩ := mem_set steady.distinct found member
      · exact ih m (List.mem_of_getElem? found)
      · exact ih other member

/-! Jobs that leave the store. -/

/-- A last call has taken the job out and no claim has brought it since. The worker's claim of the
job had come last, its handler had ended since and then the call was made: to complete the job after
a success, to forget it after a failure in the last attempt. -/
def Finished (pollers : List (WorkerId × Settings)) (log : List Entry) (id : Uuid) : Prop :=
  ∃ newer worker job call older raw r,
    log = newer ++ .served worker (call.request worker job) .done :: older ∧
    job.id = id ∧ claims newer id = [] ∧ (worker, raw) ∈ pollers ∧
    Since older worker job [.did worker (.called job call), .did worker (.ended job r)] ∧
    ((r = .ok ∧ ∃ now, call = .complete now) ∨
      (r ≠ .ok ∧ raw.clamped.retryLimit ≤ job.attempt ∧ ∃ now, call = .forget now))

theorem Finished.append {id : Uuid} (h : Finished pollers log id) (quiet : claims more id = []) :
    Finished pollers (more ++ log) id := by
  obtain ⟨newer, worker, job, call, older, raw, r, rfl, same, unclaimed, rest⟩ := h
  refine ⟨more ++ newer, worker, job, call, older, raw, r,
    by rw [List.append_assoc], same, ?_, rest⟩
  rw [claims_append, quiet, unclaimed, List.append_nil]

theorem fits_of_ne_retry {settings : Settings} {instant : Instant} {r : Poller.HandlerResult}
    {call : Poller.Finalization}
    (fits : call = Poller.finalization settings instant job
      (some r == some Poller.HandlerResult.ok)) (final : ∀ due, call ≠ .retry due) :
    (r = .ok ∧ ∃ now, call = .complete now) ∨
      (r ≠ .ok ∧ settings.retryLimit ≤ job.attempt ∧ ∃ now, call = .forget now) := by
  obtain ⟨completes, -, forgets⟩ := Poller.finalization_kind settings instant job r
  rw [← fits] at completes forgets
  cases call with
  | complete now => exact .inl ⟨completes.mp ⟨now, rfl⟩, now, rfl⟩
  | retry due => exact absurd rfl (final due)
  | forget now =>
    obtain ⟨failed, last⟩ := forgets.mp ⟨now, rfl⟩
    exact .inr ⟨failed, last, now, rfl⟩

/-- A job is stored with its payload and due time, or it was finished. -/
def Accounted (pollers : List (WorkerId × Settings)) (log : List Entry) (id : Uuid)
    (payload : Payload) (due : Instant) (stored : Option Job) : Prop :=
  (∃ job, stored = some job ∧ job.payload = payload ∧ job.scheduledFor = due) ∨
    (stored = none ∧ Finished pollers log id)

theorem Minds.finished (h : Minds log f m) (steady : f.Steady pollers log) (member : m ∈ f.members)
    {snapshot : Job} {call : Poller.Finalization} (finalizing : m.loop = .finalizing snapshot call)
    (owner : f.store.owner? snapshot.id = some m.id) (final : ∀ due, call ≠ .retry due) :
    Finished pollers (.served m.id (call.request m.id snapshot) .done :: log) snapshot.id := by
  rw [Minds, finalizing] at h
  obtain ⟨-, r, instant, fits, since⟩ := h
  obtain ⟨raw, poller, clamped⟩ := steady.settings m member
  refine ⟨[], m.id, snapshot, call, log, raw, r, rfl, rfl, rfl, poller, since owner, ?_⟩
  rw [← clamped]
  exact fits_of_ne_retry fits final

theorem Fate.accounted {id : Uuid} {payload : Payload} {due : Instant} {before after : Option Job}
    (fate : Fate m more id before after) (stored : f.store.get? id = before)
    (steady : f.Steady pollers log) (minds : Minds log f m) (member : m ∈ f.members)
    (h : Accounted pollers log id payload due before) :
    Accounted pollers (more ++ log) id payload due after := by
  obtain ⟨job, rfl, data⟩ | ⟨rfl, finished⟩ := h
  · cases fate with
    | stays | claimed | renewed => exact .inl ⟨_, rfl, data⟩
    | @settled _ snapshot call finalizing same owner served =>
      subst same
      have holds : f.store.owner? snapshot.id = some m.id := by
        rw [MemoryStore.owner?, stored, Option.bind_some, owner]
      rw [served]
      cases call with
      | retry due => exact .inl ⟨_, rfl, data⟩
      | complete | forget =>
        exact .inr ⟨rfl, minds.finished steady member finalizing holds (by simp)⟩
  · cases fate with
    | stays unclaimed => exact .inr ⟨rfl, finished.append unclaimed⟩

theorem Reaches.accounted (h : Reaches (start clock pollers) events log f)
    (distinct : (pollers.map Prod.fst).Nodup) {id : Uuid} {payload : Payload} {due : Instant}
    (scheduled : .scheduled id payload due ∈ log) :
    Accounted pollers log id payload due (f.store.get? id) := by
  induction h with
  | nil => cases scheduled
  | @snoc _ log f _ _ before fresh step ih =>
    have steady := before.steady distinct
    cases moves_of_step step with
    | waits _ told | retires _ told =>
      rw [told] at scheduled ⊢
      exact ih scheduled
    | @acts i m after event store found moves told =>
      have acts := acts_of_step steady.coherent moves
      have member := List.mem_of_getElem? found
      rw [told] at scheduled ⊢
      have known := (List.mem_append.mp scheduled).resolve_left
        (scheduled_notMem_memberEntries f m event id payload due)
      exact (acts.fate steady.coherent id).accounted rfl steady (before.minds distinct m member)
        member (ih known)
    | @schedules id' payload' due' told =>
      have new := fresh id' rfl
      rw [told] at scheduled ⊢
      dsimp only
      rw [MemoryStore.get?_schedule payload' due' (steady.fresh new)]
      obtain same | known := List.mem_cons.mp scheduled
      · cases same
        rw [if_pos rfl]
        exact .inl ⟨_, rfl, rfl, rfl⟩
      · have other : id ≠ id' := by
          rintro rfl
          exact new (List.mem_filterMap.mpr ⟨_, known, rfl⟩)
        rw [if_neg other]
        exact (ih known).imp_right fun ⟨absent, finished⟩ => ⟨absent, finished.append rfl⟩

theorem Fate.gone {id : Uuid} {before after : Option Job} (fate : Fate m more id before after)
    (present : before ≠ none) (gone : after = none) :
    ∃ (snapshot : Job) (call : Poller.Finalization),
      more = [.served m.id (call.request m.id snapshot) .done] ∧
      snapshot.id = id ∧ before.bind Job.claimedBy = some m.id ∧ ∀ due, call ≠ .retry due := by
  cases fate with
  | stays => exact absurd gone present
  | claimed | renewed => cases gone
  | @settled _ snapshot call finalizing same owner served =>
    refine ⟨snapshot, call, served, same, owner, ?_⟩
    rintro due rfl
    cases gone

/-- No job is lost. Whatever the workers of a store do, fail to do or overlook, in whatever order, a
job that was scheduled is in the store as it was scheduled, unless the worker whose claim of it came
last has run its handler and then completed it after a success, or forgotten it after a failure in
the last attempt; and the step that takes a job out is such a call by the owner. -/
theorem stored_or_finished (distinct : (pollers.map Prod.fst).Nodup)
    (drawn : (events.filterMap Event.drawn?).Nodup)
    (run : (start clock pollers).run? events = some f) :
    (∀ id payload due, .scheduled id payload due ∈ (start clock pollers).chronicle events →
      (∃ job, f.store.get? id = some job ∧ job.payload = payload ∧ job.scheduledFor = due) ∨
      (f.store.get? id = none ∧ Finished pollers ((start clock pollers).chronicle events) id)) ∧
    ∀ e g id, f.step e = some g → f.store.get? id ≠ none → g.store.get? id = none →
      ∃ (worker : WorkerId) (job : Job) (call : Poller.Finalization),
        f.entries e = [.served worker (call.request worker job) .done] ∧ job.id = id ∧
        f.store.owner? id = some worker ∧ ∀ due, call ≠ .retry due := by
  have reaches := reaches_of_run run drawn
  refine ⟨fun id payload due scheduled => reaches.accounted distinct scheduled,
    fun e g id step present gone => ?_⟩
  have coherent := (reaches.steady distinct).coherent
  cases moves_of_step step with
  | waits | retires => exact absurd gone present
  | @acts i m after event store found moves told =>
    have fate := (acts_of_step coherent moves).fate coherent id
    obtain ⟨job, call, served, same, owner, final⟩ := fate.gone present gone
    exact ⟨m.id, job, call, told.trans served, same, owner, final⟩
  | schedules => exact absurd (f.store.get?_eq_none_of_schedule gone) present

def staleCompletion : List Event :=
  [.schedule (.ofNat 1) ⟨"mail", .null⟩ .epoch, .member 0 .go, .member 0 (.claimReturns .done),
    .advance 1000000000000, .member 1 .go, .member 1 (.claimReturns .done),
    .member 0 (.handlerEnds .ok), .member 0 .finish, .member 0 .leaseFinishes, .member 0 .conclude,
    .member 0 (.finalizeReturns .done)]

theorem staleCompletion_keeps_job :
    let workers := start ⟨.epoch⟩ [(⟨.ofNat 7⟩, {}), (⟨.ofNat 8⟩, {})]
    ∃ f, workers.run? staleCompletion = some f ∧
      ∃ job, f.store.get? (.ofNat 1) = some job ∧ job.payload = ⟨"mail", .null⟩ ∧
        job.scheduledFor = .epoch := by
  intro workers
  have stays : (workers.run? staleCompletion).any
      (fun f => (f.store.get? (.ofNat 1)).isSome) = true := by decide +kernel
  obtain ⟨f, run, present⟩ := (Option.any_eq_true _ _).mp stays
  have scheduled : .scheduled (.ofNat 1) ⟨"mail", .null⟩ .epoch ∈
      workers.chronicle staleCompletion :=
    List.mem_append_right _ List.mem_cons_self
  refine ⟨f, run, ?_⟩
  obtain kept | ⟨gone, -⟩ :=
    (stored_or_finished (by decide) (by decide) run).1 _ _ _ scheduled
  · exact kept
  · rw [gone] at present
    cases present

end DelayedJobs.Fleet
