import DelayedJobs.Proofs.Fleet.Health

/-!
Healthy workers keep their leases. In every orderly run of a fleet each renewal finds the lease in
place, the upkeep of a lease ends only with its job, and no two handlers run one job at a time.
-/

namespace DelayedJobs.Fleet

structure Sound (f : Fleet) : Prop where
  coherent : f.store.Coherent
  early : f.instant < .latest
  distinct : (f.members.map Member.id).Nodup
  inTime : ∀ m ∈ f.members, m.settings.RenewsInTime
  healthy : ∀ m ∈ f.members, f.Healthy m

variable {f : Fleet} {m after : Member} {e : World.WorkerEvent} {store : MemoryStore}

theorem Sound.set (h : f.Sound) {i : Nat} (found : f.members[i]? = some m) (id : after.id = m.id)
    (settings : after.settings = m.settings) (coherent : store.Coherent)
    (healthy : ({ f with store } : Fleet).Healthy after)
    (keeps : ∀ other ∈ f.members, other.id ≠ m.id → f.Keeps other store) :
    ({ f with members := f.members.set i after, store } : Fleet).Sound := by
  refine ⟨coherent, h.early, ?_, ?_, ?_⟩
  · rw [ids_set found id]
    exact h.distinct
  · intro other hother
    obtain rfl | ⟨hother, -⟩ := mem_set h.distinct found hother
    · rw [settings]
      exact h.inTime m (List.mem_of_getElem? found)
    · exact h.inTime other hother
  · intro other hother
    obtain rfl | ⟨hother, ne⟩ := mem_set h.distinct found hother
    · exact healthy.of_members _
    · have still := (h.healthy other hother).of_keeps (h.inTime other hother) h.early
        (keeps other hother ne)
      exact still.of_members _

theorem Sound.stepMember (h : f.Sound) {i : Nat} (found : f.members[i]? = some m)
    (orderly : m.orderly e = true) (step : f.stepMember m e = some (after, store)) :
    ({ f with members := f.members.set i after, store } : Fleet).Sound := by
  have healthy := h.healthy m (List.mem_of_getElem? found)
  obtain ⟨id, settings⟩ := settings_stepMember step
  refine h.set found id settings (coherent_stepMember h.coherent step)
    (healthy.stepMember h.coherent orderly step) fun other _ ne => ?_
  -- Of the other members' leases only the store can take anything away.
  rw [store_stepMember step]
  cases requests : m.request? e with
  | none => exact fun _ _ still _ _ => still
  | some r => exact keeps_of_request? h.coherent healthy ne requests

theorem Sound.schedule (h : f.Sound) {id : Uuid} (payload : Payload) (due : Instant)
    (fresh : f.store.get? id = none) :
    ({ f with store := f.store.schedule id payload due } : Fleet).Sound := by
  have request : f.store.Fresh (.schedule id payload due) := by
    rintro _ ⟨⟩
    exact fresh
  refine ⟨h.coherent.apply request, h.early, h.distinct, h.inTime, fun m member => ?_⟩
  exact (h.healthy m member).of_keeps (h.inTime m member) h.early
    (keeps_of_spares h.coherent request fun _ _ _ => trivial)

theorem Sound.step {g : Fleet} (h : f.Sound) {e : Event} (orderly : f.orderly e = true)
    (step : f.step e = some g) : g.Sound := by
  cases e with
  | advance time =>
    rw [Fleet.orderly, Bool.and_eq_true, List.all_eq_true] at orderly
    obtain ⟨waits, early⟩ := orderly
    obtain ⟨-, next⟩ := Option.ite_none_right_eq_some.mp step
    cases next
    exact ⟨h.coherent, of_decide_eq_true early, h.distinct, h.inTime,
      fun m member => (h.healthy m member).advance (waits m member)⟩
  | member i e =>
    rw [Fleet.step] at step
    split at step
    next m found =>
      rw [Fleet.orderly, found, Option.all_some] at orderly
      obtain ⟨⟨after, store⟩, moves, rfl⟩ := Option.map_eq_some_iff.mp step
      exact h.stepMember found orderly moves
    next => cases step
  | schedule id payload due =>
    cases step
    exact h.schedule payload due (Option.isNone_iff_eq_none.mp orderly)
  | shutdown i =>
    rw [Fleet.step] at step
    split at step
    next m found =>
      cases step
      have healthy := h.healthy m (List.mem_of_getElem? found)
      exact h.set found rfl rfl h.coherent healthy.shutdown fun _ _ _ _ _ still _ _ => still
    next => cases step

theorem Sound.run {g : Fleet} (h : f.Sound) {events : List Event}
    (orderly : f.runsOrderly events = true) (run : f.run? events = some g) : g.Sound := by
  induction events generalizing f with
  | nil =>
    cases run
    exact h
  | cons e rest ih =>
    rw [runsOrderly, Bool.and_eq_true] at orderly
    obtain ⟨between, first, later⟩ := Option.bind_eq_some_iff.mp run
    rw [first, Option.all_some] at orderly
    exact ih (h.step orderly.1 first) orderly.2 later

theorem sound_start {clock : Clock} {pollers : List (WorkerId × Settings)}
    (early : clock.anchor < .latest) (distinct : (pollers.map Prod.fst).Nodup) :
    (start clock pollers).Sound := by
  refine ⟨MemoryStore.coherent_empty, ?_, ?_, ?_, ?_⟩
  · rw [Instant.lt_iff, instant, Clock.nanos_read]
    refine Int.lt_of_le_of_lt (Int.min_le_left _ _) ?_
    simpa [start, Lease.elapsed, Instant.lt_iff] using early
  · rw [start, List.map_map]
    exact distinct
  · intro m member
    obtain ⟨⟨id, raw⟩, -, rfl⟩ := List.mem_map.mp member
    exact raw.clamped_renewsInTime
  · intro m member
    obtain ⟨poller, -, rfl⟩ := List.mem_map.mp member
    trivial

theorem Sound.attended (h : f.Sound) (member : m ∈ f.members) {run : Poller.Run}
    (running : m.loop = .running run) : f.Attended m run :=
  (h.healthy m member).attended running

theorem Sound.renews (h : f.Sound) (member : m ∈ f.members) {run : Poller.Run}
    (running : m.loop = .running run) {since : Nat} {until_ : Instant}
    (renewing : run.lease = .renewing since until_) :
    (f.store.keep m.id run.job.id until_).1 = true := by
  have upheld := (h.attended member running).upheld
  rw [renewing] at upheld
  obtain ⟨⟨-, -, granted, leased, -⟩, rfl⟩ := upheld
  obtain ⟨store, keeps, -⟩ := leased.keep h.coherent
  rw [keeps]

theorem Sound.held (h : f.Sound) (member : m ∈ f.members) {run : Poller.Run}
    (running : m.loop = .running run) {ending : Lease.Ending} (ended : run.lease = .ended ending) :
    ending = .held := by
  have upheld := (h.attended member running).upheld
  rwa [ended] at upheld

theorem Sound.owner (h : f.Sound) (member : m ∈ f.members) {id : Uuid} (handles : m.Handles id) :
    f.store.owner? id = some m.id := by
  obtain ⟨run, running, working, rfl⟩ := handles
  have attended := h.attended member running
  have upheld := attended.upheld
  cases lease : run.lease with
  | resting wakeAt =>
    rw [lease] at upheld
    obtain ⟨-, -, granted, leased, -⟩ := upheld
    exact leased.owner
  | renewing since until_ =>
    rw [lease] at upheld
    obtain ⟨⟨-, -, granted, leased, -⟩, -⟩ := upheld
    exact leased.owner
  | ended ending =>
    have finished := attended.kept (by rw [lease]; rfl)
    have answered := attended.answered finished
    rw [working] at answered
    cases answered

/-- Healthy workers with distinct identifiers never lose a lease, and no two of them have a handler
at work on one job. -/
theorem leases_never_lapse {clock : Clock} {pollers : List (WorkerId × Settings)}
    (early : clock.anchor < .latest) (distinct : (pollers.map Prod.fst).Nodup)
    {events : List Event} (orderly : (start clock pollers).runsOrderly events = true)
    {f : Fleet} (run : (start clock pollers).run? events = some f) :
    (∀ m ∈ f.members, ∀ run, m.loop = .running run →
      (∀ since until_, run.lease = .renewing since until_ →
        (f.store.keep m.id run.job.id until_).1 = true) ∧
      ∀ ending, run.lease = .ended ending → ending = .held) ∧
    ∀ (i j : Nat) (a b : Member) (id : Uuid), f.members[i]? = some a → f.members[j]? = some b →
      a.Handles id → b.Handles id → i = j := by
  have sound := (sound_start early distinct).run orderly run
  constructor
  · intro m member run running
    exact ⟨fun since until_ => sound.renews member running, fun ending => sound.held member running⟩
  · intro i j a b id at_i at_j first second
    have owner := sound.owner (List.mem_of_getElem? at_i) first
    rw [sound.owner (List.mem_of_getElem? at_j) second] at owner
    exact index_eq_of_id sound.distinct at_i at_j (Option.some.inj owner).symm

def thirdTry : List Event :=
  [.schedule (.ofNat 1) ⟨"mail", .null⟩ .epoch, .member 0 .go, .member 0 (.claimReturns .done),
    .member 1 .go, .member 1 (.claimReturns .done),
    .advance 5000000000, .member 0 .leaseWakes, .member 0 (.renewalReturns .failed),
    .advance 6000000000, .member 0 .leaseWakes, .member 0 (.renewalReturns .failed),
    .advance 7000000000, .member 0 .leaseWakes, .member 0 (.renewalReturns .done),
    .advance 12000000000, .member 0 .leaseWakes]

set_option maxRecDepth 10000 in
theorem thirdTry_renews :
    let pollers := [(⟨.ofNat 7⟩, {}), (⟨.ofNat 8⟩, {})]
    ∃ f, (start ⟨.epoch⟩ pollers).run? thirdTry = some f ∧
      ∀ m ∈ f.members, ∀ run, m.loop = .running run → ∀ since until_,
        run.lease = .renewing since until_ → (f.store.keep m.id run.job.id until_).1 = true := by
  intro pollers
  have orderly : (start ⟨.epoch⟩ pollers).runsOrderly thirdTry = true := by decide +kernel
  have possible : ((start ⟨.epoch⟩ pollers).run? thirdTry).isSome = true := by decide +kernel
  obtain ⟨f, run⟩ := Option.isSome_iff_exists.mp possible
  have kept := leases_never_lapse (by decide) (by decide) orderly run
  exact ⟨f, run, fun m member run running => (kept.1 m member run running).1⟩

end DelayedJobs.Fleet
