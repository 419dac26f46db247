import DelayedJobs.Store.Basic

/-!
The language of conformance checks: calls to a store, identifiers drawn on the way, and
expectations that end a check when they are not met.
-/

namespace DelayedJobs.Conformance

inductive Violation where
  | error (e : StoreError)
  | wrongAnswer
  | unmet
deriving DecidableEq

/-- What a check runs on: a backend, an endless supply of identifiers, the time of the check, and
the order in which concurrent workers get their turns. -/
structure Setting (σ : Type) where
  backend : Backend σ
  draw : Nat → Uuid
  now : Instant
  turns : List Nat := []

structure Bench (σ : Type) where
  store : σ
  drawn : Nat := 0

abbrev Check (σ : Type) := ReaderT (Setting σ) (StateT (Bench σ) (Except Violation))

namespace Check

variable {σ : Type}

def fail {α : Type} (v : Violation) : Check σ α := throw v

def ensure (b : Bool) : Check σ Unit := if b then pure () else fail .unmet

def now : Check σ Instant := return (← read).now

def draw : Check σ Uuid := fun setting bench =>
  .ok (setting.draw bench.drawn, { bench with drawn := bench.drawn + 1 })

def drawWorker : Check σ WorkerId := return ⟨← draw⟩

def call (r : Store.Request) : Check σ Store.Answer := fun setting bench =>
  match setting.backend.call r bench.store with
  | (.ok answer, store) => .ok (answer, { bench with store := store })
  | (.error e, _) => .error (.error e)

def schedule (kind : String) (data : Json) (due : Instant) : Check σ Uuid := do
  match ← call (.schedule (← draw) ⟨kind, data⟩ due) with
  | .scheduled id => return id
  | _ => fail .wrongAnswer

def leaseEnd (now : Instant) : Instant := now.after .minute

def claim (worker : WorkerId) (now : Instant) : Check σ (Option Job) := do
  match ← call (.claim worker now (leaseEnd now)) with
  | .claimed job => return job
  | _ => fail .wrongAnswer

def claimSome (worker : WorkerId) (now : Instant) : Check σ Job := do
  match ← claim worker now with
  | some job => return job
  | none => fail .unmet

def claimNone (worker : WorkerId) (now : Instant) : Check σ Unit := do
  ensure (← claim worker now).isNone

def keep (worker : WorkerId) (job : Job) (until_ : Instant) : Check σ Bool := do
  match ← call (.keep worker job until_) with
  | .kept held => return held
  | _ => fail .wrongAnswer

def finish (r : Store.Request) : Check σ Unit := do
  match ← call r with
  | .done => return ()
  | _ => fail .wrongAnswer

def complete (worker : WorkerId) (job : Job) (now : Instant) : Check σ Unit :=
  finish (.complete worker job now)

def retry (worker : WorkerId) (job : Job) (due : Instant) : Check σ Unit :=
  finish (.retry worker job due)

def forget (worker : WorkerId) (job : Job) (now : Instant) : Check σ Unit :=
  finish (.forget worker job now)

def prune (cutoff : Instant) : Check σ Bool := do
  match ← call (.prune cutoff) with
  | .pruned more => return more
  | _ => fail .wrongAnswer

def passes (check : Check σ Unit) (setting : Setting σ) (s : σ) : Bool :=
  match check setting { store := s } with
  | .ok _ => true
  | .error _ => false

end Check
end DelayedJobs.Conformance
