import DelayedJobs.Proofs.Scheduler.Poller
import DelayedJobs.Proofs.Store.Effect
import DelayedJobs.Scheduler.World

/-!
Any number of workers at one store in memory. They share a clock, and each has an identifier,
settings and a shutdown signal of its own. Jobs are scheduled from outside; nothing else touches
the store. A step of a worker is a step of its loop, with at most one request to the store.
-/

namespace DelayedJobs

structure Member where
  id : WorkerId
  settings : Settings
  loop : Poller.Phase := .checking
  shutdown : Bool := false
  /-- How many renewals in a row have failed since the lease was taken or renewed. -/
  failures : Nat := 0

structure Fleet where
  clock : Clock
  now : Nat := 0
  store : MemoryStore := {}
  members : List Member := []

namespace Member
open Store (Request)

def failuresAfter (m : Member) : Poller.Event → Nat
  | .lease (.answer .failed) => m.failures + 1
  | .lease (.answer _) | .claimed _ => 0
  | _ => m.failures

def Handles (m : Member) (id : Uuid) : Prop :=
  ∃ run, m.loop = .running run ∧ run.result = none ∧ run.job.id = id

def worker (m : Member) : Worker := { id := m.id, loop := m.loop }

def request? (m : Member) : World.WorkerEvent → Option Request
  | .claimReturns .done =>
    match m.loop with
    | .claiming now until_ => some (.claim m.id now until_)
    | _ => none
  | .renewalReturns .done =>
    match m.loop with
    | .running { job, lease := .renewing _ until_, .. } => some (.keep m.id job until_)
    | _ => none
  | .finalizeReturns .done =>
    match m.loop with
    | .finalizing job call => some (call.request m.id job)
    | _ => none
  | _ => none

theorem request?_cases {m : Member} {e : World.WorkerEvent} {r : Request}
    (h : m.request? e = some r) :
    (∃ now until_, m.loop = .claiming now until_ ∧ r = .claim m.id now until_) ∨
      ∃ id, r.caller? = some (m.id, id) := by
  unfold request? at h
  split at h
  next =>
    split at h
    next now until_ claiming =>
      cases h
      exact .inl ⟨now, until_, claiming, rfl⟩
    next => cases h
  next =>
    split at h
    next job _ _ _ _ _ =>
      cases h
      exact .inr ⟨job.id, rfl⟩
    next => cases h
  next =>
    split at h
    next job call _ =>
      cases h
      exact .inr ⟨job.id, by cases call <;> rfl⟩
    next => cases h
  next => cases h

theorem fresh_of_request? {m : Member} {e : World.WorkerEvent} {r : Request}
    (h : m.request? e = some r) {s : MemoryStore} : s.Fresh r := by
  obtain ⟨now, until_, -, rfl⟩ | ⟨id, caller⟩ := request?_cases h
  · exact nofun
  · cases r with
    | schedule => cases caller
    | _ => exact nofun

end Member

namespace World

def claimed : Option Job → Poller.Claim
  | some job => .job job
  | none => .nothing

theorem claimReturns_done (store : MemoryStore) (worker : WorkerId) (now until_ : Instant) :
    claimReturns store worker now until_ .done =
      (claimed (store.claim worker now until_).1, (store.claim worker now until_).2) := by
  rw [claimReturns]
  split
  next eq => rw [eq, claimed]
  next eq => rw [eq, claimed]

theorem renewalReturns_done (store : MemoryStore) (worker : WorkerId) (id : Uuid)
    (until_ : Instant) :
    renewalReturns store worker id until_ .done =
      (if (store.keep worker id until_).1 then .kept else .lost,
        (store.keep worker id until_).2) := by
  rw [renewalReturns]
  split
  next eq => rw [eq, if_pos rfl]
  next eq => rw [eq, if_neg Bool.false_ne_true]

/-! In which phase a call returns to a worker. -/

section Returns
variable {s after : MemoryStore} {m : Member} {o : CallOutcome} {event : Poller.Event}

theorem claiming_of_returns
    (returns : loopEvent? s m.worker (.claimReturns o) = some (event, after)) :
    ∃ now until_, m.loop = .claiming now until_ ∧
      event = .claimed (claimReturns s m.id now until_ o).1 ∧
      after = (claimReturns s m.id now until_ o).2 := by
  simp only [loopEvent?, Member.worker] at returns
  split at returns
  next now until_ claiming =>
    cases returns
    exact ⟨now, until_, claiming, rfl, rfl⟩
  next => cases returns

theorem renewing_of_returns
    (returns : loopEvent? s m.worker (.renewalReturns o) = some (event, after)) :
    ∃ run since until_, m.loop = .running run ∧ run.lease = .renewing since until_ ∧
      event = .lease (.answer (renewalReturns s m.id run.job.id until_ o).1) ∧
      after = (renewalReturns s m.id run.job.id until_ o).2 := by
  simp only [loopEvent?, Member.worker] at returns
  split at returns
  next job result finished since until_ running =>
    cases returns
    exact ⟨_, since, until_, running, rfl, rfl, rfl⟩
  next => cases returns

theorem finalizing_of_returns
    (returns : loopEvent? s m.worker (.finalizeReturns o) = some (event, after)) :
    ∃ job call, m.loop = .finalizing job call ∧
      event = .finalized (finalizeReturns s m.id job call o).1 ∧
      after = (finalizeReturns s m.id job call o).2 := by
  simp only [loopEvent?, Member.worker] at returns
  split at returns
  next job call finalizing =>
    cases returns
    exact ⟨job, call, finalizing, rfl, rfl⟩
  next => cases returns

end Returns
end World

namespace Fleet
open Store (Request)

inductive Event where
  /-- Time passes up to that many nanoseconds after the start. -/
  | advance (time : Nat)
  | member (i : Nat) (e : World.WorkerEvent)
  | schedule (id : Uuid) (payload : Payload) (due : Instant)
  | shutdown (i : Nat)

def start (clock : Clock) (pollers : List (WorkerId × Settings)) : Fleet where
  clock := clock
  members := pollers.map fun (id, raw) => { id, settings := raw.clamped }

def instant (f : Fleet) : Instant := f.clock.read (Lease.elapsed f.now)

def context (f : Fleet) (m : Member) : Poller.Context where
  settings := m.settings
  clock := f.clock
  shutdown := m.shutdown
  now := f.now

def stepMember (f : Fleet) (m : Member) (e : World.WorkerEvent) :
    Option (Member × MemoryStore) := do
  let (event, store) ← World.loopEvent? f.store m.worker e
  let loop ← Poller.step (f.context m) m.loop event
  return ({ m with loop, failures := m.failuresAfter event }, store)

def step (f : Fleet) : Event → Option Fleet
  | .advance time => if f.now ≤ time then some { f with now := time } else none
  | .member i e =>
    match f.members[i]? with
    | some m => (f.stepMember m e).map fun (m, store) =>
      { f with members := f.members.set i m, store }
    | none => none
  | .schedule id payload due => some { f with store := f.store.schedule id payload due }
  | .shutdown i =>
    match f.members[i]? with
    | some m => some { f with members := f.members.set i { m with shutdown := true } }
    | none => none

def run? (f : Fleet) : List Event → Option Fleet
  | [] => some f
  | e :: rest => (f.step e).bind fun f => f.run? rest

theorem ids_set {members : List Member} {i : Nat} {m after : Member}
    (found : members[i]? = some m) (same : after.id = m.id) :
    (members.set i after).map Member.id = members.map Member.id := by
  apply List.ext_getElem?
  intro k
  rw [List.getElem?_map, List.getElem?_map, List.getElem?_set]
  split
  next here =>
    have inside := (List.getElem?_eq_some_iff.mp found).1
    rw [← here, if_pos inside, found, Option.map_some, Option.map_some, same]
  next => rfl

theorem index_eq_of_id {members : List Member} (distinct : (members.map Member.id).Nodup)
    {i j : Nat} {a b : Member} (at_i : members[i]? = some a) (at_j : members[j]? = some b)
    (same : a.id = b.id) : i = j := by
  have inside : i < (members.map Member.id).length := by
    rw [List.length_map]
    exact (List.getElem?_eq_some_iff.mp at_i).1
  apply (List.getElem?_inj inside distinct).mp
  rw [List.getElem?_map, List.getElem?_map, at_i, at_j, Option.map_some, Option.map_some, same]

theorem mem_set {members : List Member} (distinct : (members.map Member.id).Nodup) {i : Nat}
    {m after other : Member} (found : members[i]? = some m) (h : other ∈ members.set i after) :
    other = after ∨ (other ∈ members ∧ other.id ≠ m.id) := by
  obtain ⟨k, at_k⟩ := List.mem_iff_getElem?.mp h
  rw [List.getElem?_set] at at_k
  split at at_k
  next =>
    have inside := (List.getElem?_eq_some_iff.mp found).1
    rw [if_pos inside] at at_k
    exact .inl (Option.some.inj at_k).symm
  next elsewhere =>
    refine .inr ⟨List.mem_of_getElem? at_k, fun same => elsewhere ?_⟩
    exact index_eq_of_id distinct found at_k same.symm

variable {f : Fleet} {m after : Member} {e : World.WorkerEvent} {store : MemoryStore}

theorem stepMember_eq_some : f.stepMember m e = some (after, store) ↔
    ∃ event loop, World.loopEvent? f.store m.worker e = some (event, store) ∧
      Poller.step (f.context m) m.loop event = some loop ∧
      { m with loop, failures := m.failuresAfter event } = after := by
  simp only [stepMember, Option.bind_eq_bind, Option.bind_eq_some_iff, Prod.exists, Option.pure_def,
    Option.some.injEq, Prod.mk.injEq]
  grind

/-- A worker changes the store only by its requests. -/
theorem store_stepMember (step : f.stepMember m e = some (after, store)) :
    store = (f.store.run (m.request? e).toList).2 := by
  obtain ⟨event, loop, returns, -, -⟩ := stepMember_eq_some.mp step
  cases e with
  | supervisor => cases returns
  | claimReturns o =>
    obtain ⟨now, until_, claiming, -, rfl⟩ := World.claiming_of_returns returns
    cases o with
    | done =>
      rw [World.claimReturns_done, Member.request?, claiming]
      rfl
    | _ => rfl
  | renewalReturns o =>
    obtain ⟨⟨job, result, finished, lease⟩, since, until_, running, renewing, -, rfl⟩ :=
      World.renewing_of_returns returns
    cases renewing
    cases o with
    | done =>
      rw [World.renewalReturns_done, Member.request?, running]
      rfl
    | _ => rfl
  | finalizeReturns o =>
    obtain ⟨job, call, finalizing, -, rfl⟩ := World.finalizing_of_returns returns
    cases o with
    | done =>
      rw [Member.request?, finalizing]
      rfl
    | _ => rfl
  | _ =>
    cases returns
    rfl

theorem settings_stepMember (step : f.stepMember m e = some (after, store)) :
    after.id = m.id ∧ after.settings = m.settings := by
  obtain ⟨event, loop, -, -, rfl⟩ := stepMember_eq_some.mp step
  exact ⟨rfl, rfl⟩

theorem coherent_stepMember (coherent : f.store.Coherent)
    (step : f.stepMember m e = some (after, store)) : store.Coherent := by
  rw [store_stepMember step]
  cases requests : m.request? e with
  | none => exact coherent
  | some r => exact coherent.apply (Member.fresh_of_request? requests)

end Fleet
end DelayedJobs
