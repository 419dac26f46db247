import DelayedJobs.Conformance.Suite
import DelayedJobs.Store.Memory

/-!
Stores with one fault each, to see which checks find it.
-/

namespace DelayedJobs.Conformance

inductive StoreCall where
  | schedule | claim | keep | complete | retry | forget | prune
deriving DecidableEq

inductive SnapshotFault where
  | attemptStuck | attemptZero | wrongStatus | wrongOwner | wrongUntil | wrongScheduled | newId
deriving DecidableEq

inductive StoreFault where
  | sound
  | failing (call : StoreCall)
  | failingAll
  | claimNone
  | claimFuture
  /-- Claims look a microsecond back. -/
  | claimStrict
  | noLease
  | endlessLease
  | snapshot (fault : SnapshotFault)
  | payloadLost
  | scheduleId
  /-- The first claim that finds nothing hands out the last job again. -/
  | doubleClaim
  | keepAnswers (held : Bool)
  | keepIdle
  | finalizeAnyOwner
  | completeIdle
  | retryIdle
  | forgetIdle
  | retryForgets
  | retryNow
  | forgetRetries
  | pruneTrue
  | pruneOnce
  /-- Prunes complete the first job that is due. -/
  | prunePending
deriving DecidableEq

namespace StoreFault

def ofName? : String → Option StoreFault
  | "none" => some sound
  | "schedule_error" => some (failing .schedule)
  | "claim_error" => some (failing .claim)
  | "keep_error" => some (failing .keep)
  | "complete_error" => some (failing .complete)
  | "retry_error" => some (failing .retry)
  | "forget_error" => some (failing .forget)
  | "prune_error" => some (failing .prune)
  | "error" => some failingAll
  | "claim_none" => some claimNone
  | "claim_future" => some claimFuture
  | "claim_strict" => some claimStrict
  | "no_lease" => some noLease
  | "endless_lease" => some endlessLease
  | "attempt_stuck" => some (snapshot .attemptStuck)
  | "attempt_zero" => some (snapshot .attemptZero)
  | "wrong_status" => some (snapshot .wrongStatus)
  | "wrong_owner" => some (snapshot .wrongOwner)
  | "wrong_until" => some (snapshot .wrongUntil)
  | "wrong_scheduled" => some (snapshot .wrongScheduled)
  | "new_id" => some (snapshot .newId)
  | "payload_lost" => some payloadLost
  | "schedule_id" => some scheduleId
  | "double_claim" => some doubleClaim
  | "keep_true" => some (keepAnswers true)
  | "keep_false" => some (keepAnswers false)
  | "keep_noop" => some keepIdle
  | "finalize_any_owner" => some finalizeAnyOwner
  | "complete_noop" => some completeIdle
  | "retry_noop" => some retryIdle
  | "forget_noop" => some forgetIdle
  | "retry_forgets" => some retryForgets
  | "retry_now" => some retryNow
  | "forget_retries" => some forgetRetries
  | "prune_true" => some pruneTrue
  | "prune_once" => some pruneOnce
  | "prune_pending" => some prunePending
  | _ => none

end StoreFault

structure FaultyStore where
  store : MemoryStore := {}
  lastClaimed : Option Job := none
  lastClaimer : Option WorkerId := none
  doubled : Bool := false
  pruned : Bool := false
  snapshots : Nat := 0

namespace FaultyStore

def callOf : Store.Request → StoreCall
  | .schedule _ _ _ => .schedule
  | .claim _ _ _ => .claim
  | .keep _ _ _ => .keep
  | .complete _ _ _ => .complete
  | .retry _ _ _ => .retry
  | .forget _ _ _ => .forget
  | .prune _ => .prune

def pass (s : FaultyStore) (r : Store.Request) : Store.Answer × FaultyStore :=
  let (answer, store) := s.store.apply r
  (answer, { s with store := store })

def distort (fault : SnapshotFault) (now : Instant) (count : Nat) (job : Job) : Job :=
  match fault with
  | .attemptStuck => { job with attempt := 1 }
  | .attemptZero => { job with attempt := job.attempt - 1 }
  | .wrongStatus => { job with status := .ready }
  | .wrongOwner => { job with claimedBy := none }
  | .wrongUntil => { job with invisibleUntil := now }
  | .wrongScheduled => { job with scheduledFor := now }
  | .newId => { job with id := .ofNat (Word.count127 + count) }

def claim (fault : StoreFault) (s : FaultyStore) (worker : WorkerId) (now until_ : Instant) :
    Option Job × FaultyStore :=
  let (at_, end_) := match fault with
    | .claimFuture => (Instant.latest, until_)
    | .claimStrict => (now.before (.ofNanos 1000), until_)
    | .noLease => (now, now)
    | .endlessLease => (now, .latest)
    | _ => (now, until_)
  let (job, store) := s.store.claim worker at_ end_
  match job with
  | some job =>
    let shown := match fault with
      | .snapshot f => distort f now s.snapshots job
      | _ => job
    (some shown, { s with
      store := store
      lastClaimed := some shown
      lastClaimer := some worker
      snapshots := s.snapshots + 1 })
  | none =>
    if fault = .doubleClaim ∧ !s.doubled ∧ s.lastClaimed.isSome then
      (s.lastClaimed, { s with store := store, doubled := true })
    else (none, { s with store := store })

def sound (fault : StoreFault) (s : FaultyStore) (r : Store.Request) :
    Store.Answer × FaultyStore :=
  match fault, r with
  | .payloadLost, .schedule id payload due => s.pass (.schedule id ⟨payload.kind, .null⟩ due)
  | .scheduleId, .schedule id payload due =>
    (.scheduled .nil, (s.pass (.schedule id payload due)).2)
  | .claimNone, .claim _ _ _ => (.claimed none, s)
  | fault, .claim worker now until_ =>
    let (job, s) := s.claim fault worker now until_
    (.claimed job, s)
  | .keepAnswers held, .keep worker job until_ => (.kept held, (s.pass (.keep worker job until_)).2)
  | .keepIdle, .keep worker job _ => (.kept (job.claimedBy == some worker), s)
  | .completeIdle, .complete _ _ _ => (.done, s)
  | .retryIdle, .retry _ _ _ => (.done, s)
  | .forgetIdle, .forget _ _ _ => (.done, s)
  | .finalizeAnyOwner, .complete worker job now =>
    s.pass (.complete (s.lastClaimer.getD worker) job now)
  | .finalizeAnyOwner, .forget worker job now =>
    s.pass (.forget (s.lastClaimer.getD worker) job now)
  | .retryForgets, .retry worker job due => s.pass (.forget worker job due)
  | .retryNow, .retry worker job _ => s.pass (.retry worker job job.scheduledFor)
  | .forgetRetries, .forget worker job now => s.pass (.retry worker job now)
  | .pruneTrue, .prune _ => (.pruned true, s)
  | .pruneOnce, .prune _ => (.pruned !s.pruned, { s with pruned := true })
  | .prunePending, .prune cutoff =>
    let worker : WorkerId := ⟨.ofNat (Word.count128 - 1)⟩
    let (job, store) := s.store.claim worker cutoff cutoff
    let store := job.elim store fun j => store.remove worker j.id
    (.pruned false, { s with store := store })
  | _, r => s.pass r

def call (fault : StoreFault) (r : Store.Request) (s : FaultyStore) :
    Except StoreError Store.Answer × FaultyStore :=
  if fault = .failingAll ∨ fault = .failing (callOf r) then
    (.error (.unavailable "injected failure"), s)
  else
    let (answer, s) := sound fault s r
    (.ok answer, s)

def backend (fault : StoreFault) : Backend FaultyStore := ⟨call fault⟩

end FaultyStore

def passes? (check : String) (fault : StoreFault) (now : Instant) : Option Bool :=
  let setting : Setting FaultyStore :=
    { backend := FaultyStore.backend fault, draw := fun n => .ofNat (n + 1), now := now }
  if check = "run_all" then some (passesAll setting {})
  else (checks.lookup check).map fun c => c.passes setting {}

end DelayedJobs.Conformance
