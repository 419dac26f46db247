import DelayedJobs.Proofs.Scheduler.Supervisor
import DelayedJobs.Proofs.Timed.Shutdown

/-!
Supervision in time. The gate opens or is dropped at an instant, or neither; runs end when and as
they like; pauses are drawn from their range. Each entry of the log says when the next one comes.
-/

namespace DelayedJobs
namespace Supervisor

inductive GateFate where
  | closed
  | opens (time : Nat)
  | drops (time : Nat)
deriving DecidableEq

namespace GateFate

def instants : GateFate → List Nat
  | closed => []
  | opens t | drops t => [t]

def isOpen (now : Nat) : GateFate → Bool
  | opens t => t ≤ now
  | _ => false

def isDropped (now : Nat) : GateFate → Bool
  | drops t => t ≤ now
  | _ => false

def allows (gate : GateFate) (now : Nat) : Event → Bool
  | .gateOpened => gate.isOpen now
  | .gateDropped => gate.isDropped now
  | _ => true

theorem isOpen_iff {gate : GateFate} {now : Nat} :
    gate.isOpen now = true ↔ ∃ t, gate = .opens t ∧ t ≤ now := by
  cases gate <;> simp [isOpen]

theorem isDropped_iff {gate : GateFate} {now : Nat} :
    gate.isDropped now = true ↔ ∃ t, gate = .drops t ∧ t ≤ now := by
  cases gate <;> simp [isDropped]

theorem isOpen_mono {gate : GateFate} {now t : Nat} (h : gate.isOpen now = true)
    (later : now ≤ t) : gate.isOpen t = true := by
  obtain ⟨o, eq, past⟩ := isOpen_iff.mp h
  exact isOpen_iff.mpr ⟨o, eq, past.trans later⟩

theorem isDropped_mono {gate : GateFate} {now t : Nat} (h : gate.isDropped now = true)
    (later : now ≤ t) : gate.isDropped t = true := by
  obtain ⟨d, eq, past⟩ := isDropped_iff.mp h
  exact isDropped_iff.mpr ⟨d, eq, past.trans later⟩

end GateFate

inductive Mark where
  | started
  | opened
  | began (failures : UInt32)
  /-- A run ends; it is counted if it has failed. -/
  | ended (r : RunEnd) (failures : UInt32)
  | returned
deriving DecidableEq

def countEnd (failures : UInt32) (r : RunEnd) : UInt32 := if r = .ok then failures else failures + 1

def left : Event → Phase → List Mark
  | .gateOpened, _ => [.opened]
  | .runEnded r _, .running k => [.ended r (countEnd k r)]
  | _, _ => []

def reached : Phase → List Mark
  | .running k => [.began k]
  | .returned => [.returned]
  | _ => []

def marks (p : Phase) (e : Event) (q : Phase) : List Mark := left e p ++ reached q

/-- Waits end in time or when shutdown fires, and a look whether to start a run takes no time. -/
def closable (gate : GateFate) : Closable Phase Event Mark where
  step down now p e :=
    if gate.allows now e then (step down now p e).map fun q => (q, marks p e q) else none
  deadlines down
    | .gated => if down then [0] else gate.instants
    | .checking _ => [0]
    | .pausing _ wakeAt => [if down then 0 else wakeAt]
    | _ => []

abbrev Watch := Closable.Watch Phase Mark

abbrev timed (gate : GateFate) (shutdownAt : Option Nat) : Timed Watch (Closable.Turn Event) :=
  (closable gate).timed shutdownAt

def start (shutdownAt : Option Nat) (now : Nat) : Timed.Moment Watch :=
  Closable.start shutdownAt .gated .started now

def Restart (failures : UInt32) (pause : Nat) : Prop :=
  600000000 * min failures.toNat 5 ≤ pause ∧ pause ≤ 1000000000 * min failures.toNat 5

theorem restart_of_between {k : UInt32} {pause : Duration}
    (h : shortestPause k ≤ pause ∧ pause ≤ longestPause k) : Restart k pause.nanos := by
  simp only [Duration.le_iff, shortestPause, longestPause, Duration.ofMillis,
    Duration.nanos_ofNanos, Duration.maxNanos, mostFailures] at h
  rw [Restart]
  omega

inductive Next (gate : GateFate) (t₀ : Nat) (shutdownAt : Option Nat) :
    Nat × Mark → Nat × Mark → Prop
  | opened {o : Nat} (h : gate = .opens o) :
    Next gate t₀ shutdownAt (t₀, .started) (max t₀ o, .opened)
  | dropped {d : Nat} (h : gate = .drops d) :
    Next gate t₀ shutdownAt (t₀, .started) (max t₀ d, .returned)
  | leave {f : Nat} (h : f ∈ shutdownAt) (soon : ∀ g ∈ gate.instants, f ≤ max t₀ g) :
    Next gate t₀ shutdownAt (t₀, .started) (max t₀ f, .returned)
  /-- The first run begins as soon as the gate has opened, unless shutdown has fired. -/
  | first {t : Nat} (early : ∀ f ∈ shutdownAt, t ≤ f) :
    Next gate t₀ shutdownAt (t, .opened) (t, .began 0)
  | late {t f : Nat} (h : f ∈ shutdownAt) (past : f ≤ t) :
    Next gate t₀ shutdownAt (t, .opened) (t, .returned)
  | ended {t t' : Nat} {k : UInt32} {r : RunEnd} (h : t ≤ t') :
    Next gate t₀ shutdownAt (t, .began k) (t', .ended r (countEnd k r))
  | well {t : Nat} {k : UInt32} : Next gate t₀ shutdownAt (t, .ended .ok k) (t, .returned)
  | again {t pause : Nat} {k : UInt32} {r : RunEnd} (failed : r ≠ .ok) (within : Restart k pause)
      (early : ∀ f ∈ shutdownAt, t + pause ≤ f) :
    Next gate t₀ shutdownAt (t, .ended r k) (t + pause, .began k)
  | cut {t f pause : Nat} {k : UInt32} {r : RunEnd} (failed : r ≠ .ok) (within : Restart k pause)
      (h : f ∈ shutdownAt) (soon : f ≤ t + pause) :
    Next gate t₀ shutdownAt (t, .ended r k) (max t f, .returned)

def Mark.isBegan : Mark → Bool
  | began _ => true
  | _ => false

def Mark.isEnded : Mark → Bool
  | ended _ _ => true
  | _ => false

def Mark.isFailure : Mark → Bool
  | ended r _ => r != .ok
  | _ => false

abbrev Log := List (Nat × Mark)

def begun (log : Log) : Nat := log.countP (·.2.isBegan)

def ended (log : Log) : Nat := log.countP (·.2.isEnded)

def failed (log : Log) : Nat := log.countP (·.2.isFailure)

section Counts
variable (log : Log) (t : Nat) (mark : Mark)

theorem begun_append :
    begun (log ++ [(t, mark)]) = begun log + if mark.isBegan then 1 else 0 := by
  rw [begun, List.countP_append, List.countP_singleton]
  rfl

theorem ended_append :
    ended (log ++ [(t, mark)]) = ended log + if mark.isEnded then 1 else 0 := by
  rw [ended, List.countP_append, List.countP_singleton]
  rfl

theorem failed_append :
    failed (log ++ [(t, mark)]) = failed log + if mark.isFailure then 1 else 0 := by
  rw [failed, List.countP_append, List.countP_singleton]
  rfl

end Counts

/-- A run begins behind the open gate, before shutdown and when no other is under way; what has
failed is counted. -/
def Orderly (gate : GateFate) (shutdownAt : Option Nat) (before : Log) : Nat × Mark → Prop
  | (t, .began k) => gate.isOpen t = true ∧ (∀ f ∈ shutdownAt, t ≤ f) ∧
      begun before = ended before ∧ k = .ofNat (failed before)
  | (_, .ended r k) => begun before = ended before + 1 ∧ k = countEnd (.ofNat (failed before)) r
  | _ => True

def Phase.failures? : Phase → Option UInt32
  | gated => some 0
  | checking k | running k | pausing k _ => some k
  | returned => none

structure Ledger (gate : GateFate) (shutdownAt : Option Nat) (log : Log) (p : Phase) : Prop where
  fits : Fits (Orderly gate shutdownAt) log
  counted : ∀ k ∈ p.failures?, k = .ofNat (failed log)
  balance : begun log = ended log + if p.isRunning then 1 else 0
  well : ∀ t k, (t, .ended .ok k) ∈ log → p = .returned

namespace Ledger
variable {gate : GateFate} {shutdownAt : Option Nat} {log : Log} {k : UInt32} {t : Nat}

theorem start (t : Nat) : Ledger gate shutdownAt [(t, .started)] .gated where
  fits := by
    have first : Orderly gate shutdownAt [] (t, .started) := trivial
    exact Fits.nil.append first
  counted := by
    rintro _ ⟨⟩
    rfl
  balance := rfl
  well := by simp

theorem opened (h : Ledger gate shutdownAt log .gated) :
    Ledger gate shutdownAt (log ++ [(t, .opened)]) (.checking 0) where
  fits := h.fits.append trivial
  counted := by
    rintro _ ⟨⟩
    rw [failed_append]
    exact h.counted 0 rfl
  balance := by
    rw [begun_append, ended_append]
    exact h.balance
  well t' k' member := by
    obtain known | new := List.mem_append.mp member
    · cases h.well t' k' known
    · simp at new

theorem began (h : Ledger gate shutdownAt log (.checking k)) (open_ : gate.isOpen t = true)
    (early : ∀ f ∈ shutdownAt, t ≤ f) :
    Ledger gate shutdownAt (log ++ [(t, .began k)]) (.running k) where
  fits := h.fits.append ⟨open_, early, h.balance, h.counted k rfl⟩
  counted := by
    rintro _ ⟨⟩
    rw [failed_append]
    exact h.counted k rfl
  balance := by
    have balance := h.balance
    rw [begun_append, ended_append]
    exact congrArg (· + 1) balance
  well t' k' member := by
    obtain known | new := List.mem_append.mp member
    · cases h.well t' k' known
    · simp at new

theorem failure (h : Ledger gate shutdownAt log (.running k)) {r : RunEnd} (failed : r ≠ .ok)
    (wakeAt : Nat) :
    Ledger gate shutdownAt (log ++ [(t, .ended r (countEnd k r))]) (.pausing (k + 1) wakeAt) where
  fits := h.fits.append ⟨h.balance, congrArg (countEnd · r) (h.counted k rfl)⟩
  counted := by
    rintro _ ⟨⟩
    have isFailure : (r != .ok) = true := bne_iff_ne.mpr failed
    rw [failed_append, Mark.isFailure, isFailure, if_pos rfl, UInt32.ofNat_add, ← h.counted k rfl]
    rfl
  balance := by
    rw [begun_append, ended_append]
    exact h.balance
  well t' k' member := by
    obtain known | new := List.mem_append.mp member
    · cases h.well t' k' known
    · cases List.mem_singleton.mp new
      exact absurd rfl failed

theorem returned {p : Phase} (h : Ledger gate shutdownAt log p) (idle : p.isRunning = false) :
    Ledger gate shutdownAt (log ++ [(t, .returned)]) .returned where
  fits := h.fits.append trivial
  counted := nofun
  balance := by
    have balance := h.balance
    rw [idle] at balance
    rw [begun_append, ended_append]
    exact balance
  well _ _ _ := rfl

theorem success (h : Ledger gate shutdownAt log (.running k)) :
    Ledger gate shutdownAt (log ++ [(t, .ended .ok k), (t, .returned)]) .returned where
  fits := by
    have ends : Orderly gate shutdownAt log (t, .ended .ok k) := ⟨h.balance, h.counted k rfl⟩
    have closes : Orderly gate shutdownAt (log ++ [(t, .ended .ok k)]) (t, .returned) := trivial
    have fits := (h.fits.append ends).append closes
    rwa [List.append_assoc] at fits
  counted := nofun
  balance := by
    rw [begun, ended, List.countP_append, List.countP_append]
    exact h.balance
  well _ _ _ := rfl

theorem woken {wakeAt : Nat} (h : Ledger gate shutdownAt log (.pausing k wakeAt)) :
    Ledger gate shutdownAt log (.checking k) where
  fits := h.fits
  counted := h.counted
  balance := h.balance
  well t' k' member := nomatch h.well t' k' member

end Ledger
end Supervisor
end DelayedJobs
