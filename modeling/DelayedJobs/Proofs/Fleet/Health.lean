import DelayedJobs.Proofs.Fleet.Basic
import DelayedJobs.Proofs.Settings.KeepAlive
import DelayedJobs.Proofs.Store.Leases

/-!
The health of one worker where calls take no time, timers are exact and at most two renewals in a
row fail. While it has a job, its lease is in place, and the last grant of the lease says when the
next renewal comes, which is before the lease ends. Neither its own steps nor those of others
change that.
-/

namespace DelayedJobs
open Store (Request)

/-- Whether the upkeep of a lease lets time pass: a timer is not overslept, a call takes no time. -/
def Lease.Phase.waits (time : Nat) : Lease.Phase → Bool
  | resting wakeAt => decide (time ≤ wakeAt)
  | renewing _ _ => false
  | ended _ => true

def Poller.Phase.waits (time : Nat) : Poller.Phase → Bool
  | resting wakeAt => decide (time ≤ wakeAt)
  | claiming _ _ | finalizing _ _ => false
  | running run => run.lease.waits time
  | checking | stopped | panicked => true

def CallOutcome.isServedOrFails (o : CallOutcome) : Bool := o == .done || o == .failed

def Member.orderly (m : Member) : World.WorkerEvent → Bool
  | .claimReturns o | .finalizeReturns o => o.isServedOrFails
  | .renewalReturns o => o == .done || (o == .failed && decide (m.failures < 2))
  | _ => true

namespace Fleet

/-- What may happen where the surroundings are in order; the clock stays short of its end. -/
def orderly (f : Fleet) : Event → Bool
  | .advance time =>
    f.members.all (·.loop.waits time) && decide (f.clock.read (Lease.elapsed time) < .latest)
  | .member i e => f.members[i]?.all (·.orderly e)
  | .schedule id _ _ => (f.store.get? id).isNone
  | .shutdown _ => true

def runsOrderly (f : Fleet) : List Event → Bool
  | [] => true
  | e :: rest => f.orderly e && (f.step e).all fun f => f.runsOrderly rest

def Leased (f : Fleet) (m : Member) (id : Uuid) (granted : Nat) : Prop :=
  ∃ job, f.store.get? id = some job ∧ job.claimedBy = some m.id ∧
    job.invisibleUntil = m.settings.leaseEnd (f.clock.read (Lease.elapsed granted))

/-- The renewal at `wakeAt` follows the last grant of a lease by an interval and one pause for each
renewal that has failed. -/
def Covered (f : Fleet) (m : Member) (id : Uuid) (wakeAt : Nat) : Prop :=
  m.failures ≤ 2 ∧ f.now ≤ wakeAt ∧ ∃ granted, f.Leased m id granted ∧
    wakeAt ≤ granted + m.settings.keepAliveInterval.nanos +
      m.failures * m.settings.keepAliveRetryInterval.nanos

def Upheld (f : Fleet) (m : Member) (id : Uuid) : Lease.Phase → Prop
  | .resting wakeAt => f.Covered m id wakeAt
  | .renewing _ until_ => f.Covered m id f.now ∧ until_ = m.settings.leaseEnd f.instant
  | .ended ending => ending = .held

structure Attended (f : Fleet) (m : Member) (run : Poller.Run) : Prop where
  answered : run.finished = true → run.result.isSome = true
  kept : run.lease.isEnded = true → run.finished = true
  upheld : f.Upheld m run.job.id run.lease

def Healthy (f : Fleet) (m : Member) : Prop :=
  match m.loop with
  | .claiming now until_ => now = f.instant ∧ until_ = m.settings.leaseEnd f.instant
  | .running run => f.Attended m run
  | _ => True

variable {f : Fleet} {m after : Member} {e : World.WorkerEvent} {store : MemoryStore}

theorem Covered.lt_end {id : Uuid} {wakeAt : Nat} (h : f.Covered m id wakeAt)
    (inTime : m.settings.RenewsInTime) (early : f.instant < .latest) :
    ∃ job, f.store.get? id = some job ∧ job.claimedBy = some m.id ∧
      f.instant < job.invisibleUntil := by
  obtain ⟨tries, ahead, granted, ⟨job, found, owner, leaseEnd⟩, soon⟩ := h
  refine ⟨job, found, owner, ?_⟩
  rw [leaseEnd]
  have third : wakeAt ≤ granted + m.settings.keepAliveInterval.nanos +
      2 * m.settings.keepAliveRetryInterval.nanos :=
    Nat.le_trans soon (Nat.add_le_add_left (Nat.mul_le_mul_right _ tries) _)
  exact inTime.lt_leaseEnd f.clock early (Nat.le_trans ahead third)

/-! What other workers do leaves a lease in place. -/

def Keeps (f : Fleet) (m : Member) (store : MemoryStore) : Prop :=
  ∀ id job, f.store.get? id = some job → job.claimedBy = some m.id →
    f.instant < job.invisibleUntil → store.get? id = some job

theorem keeps_of_spares (coherent : f.store.Coherent) {r : Request} (fresh : f.store.Fresh r)
    (spares : ∀ id end_, f.instant < end_ → r.Spares id m.id end_) :
    f.Keeps m (f.store.apply r).2 := by
  intro id job found owner later
  exact (coherent.get?_of_spares found owner fresh (spares id _ later)).1

theorem Covered.of_keeps {id : Uuid} {wakeAt : Nat} (h : f.Covered m id wakeAt)
    (inTime : m.settings.RenewsInTime) (early : f.instant < .latest) (keeps : f.Keeps m store) :
    ({ f with store } : Fleet).Covered m id wakeAt := by
  obtain ⟨job, found, owner, later⟩ := h.lt_end inTime early
  have still := keeps id job found owner later
  obtain ⟨tries, ahead, granted, ⟨job', found', owner', leaseEnd⟩, soon⟩ := h
  cases found.symm.trans found'
  exact ⟨tries, ahead, granted, ⟨job, still, owner, leaseEnd⟩, soon⟩

theorem Healthy.of_keeps (h : f.Healthy m) (inTime : m.settings.RenewsInTime)
    (early : f.instant < .latest) (keeps : f.Keeps m store) :
    ({ f with store } : Fleet).Healthy m := by
  unfold Healthy at h ⊢
  split at h
  · exact h
  next run _ =>
    refine ⟨h.answered, h.kept, ?_⟩
    have upheld := h.upheld
    unfold Upheld at upheld ⊢
    split at upheld
    · exact upheld.of_keeps inTime early keeps
    · exact ⟨upheld.1.of_keeps inTime early keeps, upheld.2⟩
    · exact upheld
  · trivial

theorem keeps_of_request? (coherent : f.store.Coherent) {other : Member} (healthy : f.Healthy m)
    (ne : other.id ≠ m.id) {r : Request} (requests : m.request? e = some r) :
    f.Keeps other (f.store.apply r).2 := by
  refine keeps_of_spares coherent (Member.fresh_of_request? requests) fun id end_ later => ?_
  obtain ⟨now, until_, claiming, rfl⟩ | ⟨id, caller⟩ := Member.request?_cases requests
  · rw [Healthy, claiming] at healthy
    exact healthy.1 ▸ later
  · exact Request.spares_of_caller caller ne

/-! What a worker does itself. -/

theorem Leased.owner {id : Uuid} {granted : Nat} (leased : f.Leased m id granted) :
    f.store.owner? id = some m.id := by
  obtain ⟨job, found, owner, -⟩ := leased
  rw [MemoryStore.owner?, found, Option.bind_some, owner]

theorem Leased.covered {id : Uuid} (leased : f.Leased m id f.now) (first : m.failures = 0) :
    f.Covered m id (f.now + m.settings.keepAliveInterval.nanos) := by
  rw [Covered, first]
  exact ⟨Nat.zero_le _, Nat.le_add_right _ _, f.now, leased, Nat.le_add_right _ _⟩

theorem Leased.of_claim (coherent : f.store.Coherent) {job : Job}
    (claims : f.store.claim m.id f.instant (m.settings.leaseEnd f.instant) = (some job, store)) :
    ({ f with store } : Fleet).Leased m job.id f.now := by
  obtain ⟨nothing, -⟩ | ⟨first, member, -, -, takes⟩ :=
    coherent.claim_cases m.id f.instant (m.settings.leaseEnd f.instant)
  · cases nothing.symm.trans claims
  · cases takes.symm.trans claims
    refine ⟨first.leased m.id (m.settings.leaseEnd f.instant), ?_, rfl, rfl⟩
    rw [coherent.get?_replace member (Job.id_leased _ _ _), Job.id_leased, if_pos rfl]

theorem Leased.keep (coherent : f.store.Coherent) {id : Uuid} {granted : Nat}
    (leased : f.Leased m id granted) :
    ∃ store, f.store.keep m.id id (m.settings.leaseEnd f.instant) = (true, store) ∧
      ({ f with store } : Fleet).Leased m id f.now := by
  obtain ⟨-, other⟩ | ⟨held, member, rfl, owner, keeps⟩ :=
    coherent.keep_cases m.id id (m.settings.leaseEnd f.instant)
  · exact absurd leased.owner other
  · refine ⟨_, keeps, held.renewed (m.settings.leaseEnd f.instant), ?_, owner, rfl⟩
    rw [coherent.get?_replace member (Job.id_renewed _ _), if_pos rfl]

theorem healthy_without_job {claim : Poller.Claim} (empty : claim = .nothing ∨ claim = .failed) :
    f.Healthy { m with loop := Poller.claimed (f.context m) claim, failures := 0 } := by
  cases shutdown : (f.context m).shutdown <;>
    obtain rfl | rfl := empty <;> simp [Healthy, Poller.claimed, shutdown]

theorem Healthy.claimReturns (h : f.Healthy m) (coherent : f.store.Coherent) {o : CallOutcome}
    {now until_ : Instant} (claiming : m.loop = .claiming now until_)
    (served : o.isServedOrFails = true) :
    let (claim, store) := World.claimReturns f.store m.id now until_ o
    ({ f with store } : Fleet).Healthy
      { m with loop := Poller.claimed (f.context m) claim, failures := 0 } := by
  rw [Healthy, claiming] at h
  obtain ⟨rfl, rfl⟩ := h
  cases o with
  | denied | panicked => cases served
  | failed => exact healthy_without_job (.inr rfl)
  | done =>
    rw [World.claimReturns_done]
    cases claims : f.store.claim m.id f.instant (m.settings.leaseEnd f.instant) with
    | mk job store =>
      cases job with
      | none => exact healthy_without_job (.inl rfl)
      | some job =>
        have leased := Leased.of_claim coherent claims
        exact ⟨nofun, nofun, Leased.covered leased rfl⟩

theorem Healthy.renewalReturns (h : f.Healthy m) (coherent : f.store.Coherent) {o : CallOutcome}
    {run : Poller.Run} {since : Nat} {until_ : Instant} (running : m.loop = .running run)
    (renewing : run.lease = .renewing since until_)
    (orderly : m.orderly (.renewalReturns o) = true) :
    let (renewal, store) := World.renewalReturns f.store m.id run.job.id until_ o
    ({ f with store } : Fleet).Healthy
      { m with
        loop := .running { run with lease := Lease.answered m.settings f.now renewal }
        failures := m.failuresAfter (.lease (.answer renewal)) } := by
  rw [Healthy, running] at h
  obtain ⟨answered, -, upheld⟩ := h
  rw [renewing] at upheld
  obtain ⟨⟨tries, -, granted, leased, soon⟩, rfl⟩ := upheld
  cases o with
  | denied | panicked => cases orderly
  | failed =>
    -- The lease is not granted anew, and the one more failure pays for the one more pause.
    have few : m.failures < 2 := by simpa [Member.orderly] using orderly
    refine ⟨answered, nofun, few, Nat.le_add_right _ _, granted, leased, ?_⟩
    show f.now + m.settings.keepAliveRetryInterval.nanos ≤
      granted + m.settings.keepAliveInterval.nanos +
        (m.failures + 1) * m.settings.keepAliveRetryInterval.nanos
    rw [Nat.add_mul, Nat.one_mul, ← Nat.add_assoc]
    exact Nat.add_le_add_right soon _
  | done =>
    obtain ⟨store, keeps, again⟩ := leased.keep coherent
    rw [World.renewalReturns_done, keeps]
    exact ⟨answered, nofun, Leased.covered again rfl⟩

section Events
variable {run : Poller.Run} {q : Poller.Phase}

theorem Healthy.attended (h : f.Healthy m) (running : m.loop = .running run) :
    f.Attended m run := by
  rwa [Healthy, running] at h

theorem Attended.healthy (h : f.Attended m run) : f.Healthy { m with loop := .running run } :=
  ⟨h.answered, h.kept, h.upheld⟩

theorem healthy_go (moves : Poller.step (f.context m) m.loop .go = some q) :
    f.Healthy { m with loop := q } := by
  obtain ⟨-, next⟩ := Poller.step_eq_some_iff.mp moves
  split at next
  · subst next
    trivial
  · subst next
    exact ⟨rfl, rfl⟩

theorem Attended.handlerEnds (h : f.Attended m run) (r : Poller.HandlerResult) :
    f.Attended m { run with result := some r } :=
  ⟨fun _ => rfl, h.kept, h.upheld⟩

theorem Attended.finish (h : f.Attended m run) (ended : run.result.isSome = true) :
    f.Attended m { run with finished := true } :=
  ⟨fun _ => ended, fun _ => rfl, h.upheld⟩

/-- Timers are exact: the clock has reached the time of the renewal but not passed it. -/
theorem Attended.leaseWakes (h : f.Attended m run) {wakeAt : Nat}
    (resting : run.lease = .resting wakeAt) (due : wakeAt ≤ f.now) :
    f.Attended m { run with lease := .renewing f.now (m.settings.leaseEnd f.instant) } := by
  have covered := h.upheld
  rw [resting] at covered
  have now : wakeAt = f.now := Nat.le_antisymm due covered.2.1
  rw [now] at covered
  exact ⟨h.answered, nofun, covered, rfl⟩

theorem Attended.leaseFinishes (h : f.Attended m run) (finished : run.finished = true) :
    f.Attended m { run with lease := .ended .held } :=
  ⟨h.answered, fun _ => finished, rfl⟩

theorem healthy_conclude (moves : Poller.step (f.context m) m.loop .conclude = some q) :
    f.Healthy { m with loop := q } := by
  obtain ⟨run, -, -, next⟩ := Poller.step_eq_some_iff.mp moves
  split at next <;> subst next <;> trivial

theorem healthy_finalized {r : Poller.Finalized}
    (moves : Poller.step (f.context m) m.loop (.finalized r) = some q) :
    f.Healthy { m with loop := q } := by
  obtain ⟨-, next⟩ := Poller.step_eq_some_iff.mp moves
  split at next <;> subst next <;> trivial

end Events

theorem Healthy.stepMember (h : f.Healthy m) (coherent : f.store.Coherent)
    (orderly : m.orderly e = true) (step : f.stepMember m e = some (after, store)) :
    ({ f with store } : Fleet).Healthy after := by
  obtain ⟨event, loop, returns, moves, rfl⟩ := stepMember_eq_some.mp step
  cases e with
  | supervisor => cases returns
  | go =>
    cases returns
    exact healthy_go moves
  | wake =>
    cases returns
    obtain ⟨wakeAt, -, -, rfl⟩ := Poller.step_eq_some_iff.mp moves
    trivial
  | cut =>
    cases returns
    obtain ⟨-, -, rfl⟩ := Poller.step_eq_some_iff.mp moves
    trivial
  | handlerEnds r =>
    cases returns
    obtain ⟨run, running, -, rfl⟩ := Poller.step_eq_some_iff.mp moves
    exact ((h.attended running).handlerEnds r).healthy
  | finish =>
    cases returns
    obtain ⟨run, running, ⟨ended, -⟩, rfl⟩ := Poller.step_eq_some_iff.mp moves
    exact ((h.attended running).finish ended).healthy
  | leaseWakes =>
    cases returns
    obtain ⟨run, running, -, lease, upkeep, rfl⟩ := Poller.step_eq_some_iff.mp moves
    obtain ⟨wakeAt, resting, due, rfl⟩ := Lease.step_eq_some_iff.mp upkeep
    exact ((h.attended running).leaseWakes resting due).healthy
  | leaseFinishes =>
    cases returns
    obtain ⟨run, running, finished, lease, upkeep, rfl⟩ := Poller.step_eq_some_iff.mp moves
    obtain ⟨-, rfl⟩ := Lease.step_eq_some_iff.mp upkeep
    exact ((h.attended running).leaseFinishes (finished rfl)).healthy
  | conclude =>
    cases returns
    exact healthy_conclude moves
  | finalizeReturns o =>
    obtain ⟨job, call, -, rfl, rfl⟩ := World.finalizing_of_returns returns
    exact healthy_finalized moves
  | claimReturns o =>
    obtain ⟨now, until_, claiming, rfl, rfl⟩ := World.claiming_of_returns returns
    obtain ⟨-, rfl⟩ := Poller.step_eq_some_iff.mp moves
    exact h.claimReturns coherent claiming orderly
  | renewalReturns o =>
    obtain ⟨run, since, until_, running, renewing, rfl, rfl⟩ := World.renewing_of_returns returns
    obtain ⟨run', loop, -, lease, upkeep, rfl⟩ := Poller.step_eq_some_iff.mp moves
    cases loop.symm.trans running
    obtain ⟨-, rfl⟩ := Lease.step_eq_some_iff.mp upkeep
    exact h.renewalReturns coherent running renewing orderly

theorem Healthy.advance (h : f.Healthy m) {time : Nat} (waits : m.loop.waits time = true) :
    ({ f with now := time } : Fleet).Healthy m := by
  unfold Healthy at h ⊢
  split at h
  next claiming =>
    rw [claiming] at waits
    cases waits
  next run running =>
    rw [running, Poller.Phase.waits] at waits
    refine ⟨h.answered, h.kept, ?_⟩
    have upheld := h.upheld
    unfold Upheld at upheld ⊢
    split at upheld
    next wakeAt resting =>
      rw [resting] at waits
      exact ⟨upheld.1, of_decide_eq_true waits, upheld.2.2⟩
    next renewing =>
      rw [renewing] at waits
      cases waits
    next => exact upheld
  next => trivial

theorem Healthy.of_members (h : f.Healthy m) (members : List Member) :
    ({ f with members } : Fleet).Healthy m := by
  unfold Healthy at h ⊢
  split at h
  · exact h
  · exact ⟨h.answered, h.kept, h.upheld⟩
  · trivial

theorem Healthy.shutdown (h : f.Healthy m) : f.Healthy { m with shutdown := true } := by
  unfold Healthy at h ⊢
  dsimp only
  split at h
  · exact h
  · exact ⟨h.answered, h.kept, h.upheld⟩
  · trivial

end Fleet
end DelayedJobs
