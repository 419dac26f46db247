import DelayedJobs.Proofs.Crew.Record
import Mathlib.Data.Nat.Init
import Mathlib.Order.Basic

/-!
After shutdown every loop winds down. Each step of a task brings it nearer to its end or leaves the
one who has to act where he was, so that a schedule which lets everyone act who can go on comes to
the end of all tasks and closes the store.
-/

namespace DelayedJobs

inductive Role where
  | supervisor
  | loop
  | handler
  | upkeep
deriving DecidableEq

/-- How a kind of loop comes to an end after shutdown: how far it is from there, and who brings it
nearer. -/
structure LoopKind.Descent {Phase Event : Type} (k : LoopKind Phase Event) where
  rank : Phase → Nat
  next : Phase → Role
  role? : Event → Option Role
  ended : ∀ {p}, rank p = 0 → (k.ending? p).isSome = true
  still : ∀ {c p e}, rank p = 0 → k.step c p e = none
  steps : ∀ {c p q e}, c.shutdown = true → k.step c p e = some q →
    rank q < rank p ∨ (rank q = rank p ∧ next q = next p ∧ role? e ≠ some (next p))
  able : ∀ {c p}, c.shutdown = true → rank p ≠ 0 →
    ∃ e, role? e = some (next p) ∧ (k.step c p e).isSome = true

namespace Poller

def Run.rank (run : Run) : Nat :=
  3 + run.result.isNone.toNat + (!run.finished).toNat + (!run.lease.isEnded).toNat

def rank : Phase → Nat
  | .stopped | .panicked => 0
  | .checking => 1
  | .resting _ | .finalizing _ _ => 2
  | .running run => run.rank
  | .claiming _ _ => 7

def Run.next (run : Run) : Role :=
  if run.result.isNone then .handler
  else if run.finished && !run.lease.isEnded then .upkeep
  else .loop

def next : Phase → Role
  | .running run => run.next
  | _ => .loop

def role? : Event → Option Role
  | .handlerEnded _ => some .handler
  | .lease .finish => some .upkeep
  | .lease _ => none
  | _ => some .loop

theorem steps_down {c : Context} {p q : Phase} {e : Event} (down : c.shutdown = true)
    (step : step c p e = some q) :
    rank q < rank p ∨ (rank q = rank p ∧ next q = next p ∧ role? e ≠ some (next p)) := by
  have leads := step_eq_some_iff.mp step
  cases e with
  | go =>
    obtain ⟨rfl, next⟩ := leads
    rw [if_pos down] at next
    subst next
    exact .inl (by decide)
  | claimed r =>
    obtain ⟨⟨now, until_, rfl⟩, rfl⟩ := leads
    left
    cases r with
    | job job => simp [claimed, rank, Run.rank, Lease.start, Lease.Phase.isEnded]
    | _ => simp [claimed, rank, down]
  | wake =>
    obtain ⟨wakeAt, rfl, -, rfl⟩ := leads
    simp [rank]
  | cut =>
    obtain ⟨⟨wakeAt, rfl⟩, -, rfl⟩ := leads
    simp [rank]
  | handlerEnded r =>
    obtain ⟨run, rfl, open_, rfl⟩ := leads
    simp [rank, Run.rank, open_]
  | finish =>
    obtain ⟨run, rfl, ⟨-, open_⟩, rfl⟩ := leads
    simp [rank, Run.rank, open_]
  | conclude =>
    obtain ⟨run, rfl, -, rfl⟩ := leads
    left
    split <;> simp [rank, Run.rank] <;> omega
  | finalized r =>
    obtain ⟨⟨job, call, rfl⟩, rfl⟩ := leads
    split <;> simp [rank]
  | lease e =>
    obtain ⟨run, rfl, -, lease, upkeep, rfl⟩ := leads
    have leads := Lease.step_eq_some_iff.mp upkeep
    cases e with
    | wake =>
      obtain ⟨wakeAt, eq, -, rfl⟩ := leads
      simp [rank, Run.rank, Poller.next, Run.next, role?, eq, Lease.Phase.isEnded]
    | finish =>
      obtain ⟨eq, rfl⟩ := leads
      have last : (Lease.Phase.ended .held).isEnded = true := rfl
      simp [rank, Run.rank, eq, last]
    | answer r =>
      obtain ⟨⟨since, until_, eq⟩, rfl⟩ := leads
      cases r <;>
        simp [rank, Run.rank, Poller.next, Run.next, role?, eq, Lease.Phase.isEnded, Lease.answered]

theorem able_down {c : Context} {p : Phase} (down : c.shutdown = true) (going : rank p ≠ 0) :
    ∃ e, role? e = some (next p) ∧ (step c p e).isSome = true := by
  cases p with
  | stopped | panicked => exact absurd rfl going
  | checking => exact ⟨.go, rfl, by simp [step, down]⟩
  | claiming now until_ => exact ⟨.claimed .nothing, rfl, by simp [step, down]⟩
  | resting wakeAt => exact ⟨.cut, rfl, by simp [step, down]⟩
  | finalizing job call => exact ⟨.finalized .done, rfl, rfl⟩
  | running run =>
    rw [next, Run.next]
    split
    next working =>
      exact ⟨.handlerEnded .ok, rfl, by simp [step, working]⟩
    next answered =>
      split
      next waits =>
        rw [Bool.and_eq_true, Bool.not_eq_true'] at waits
        have upkeep : Lease.step c.settings c.clock c.now run.lease .finish =
            some (.ended .held) := Lease.step_eq_some_iff.mpr ⟨waits.2, rfl⟩
        exact ⟨.lease .finish, rfl, by simp [step, waits.1, upkeep]⟩
      next acts =>
        cases finished : run.finished with
        | false =>
          have done : run.result.isSome = true :=
            Option.isSome_iff_ne_none.mpr (by simpa using answered)
          exact ⟨.finish, rfl, by simp [step, done, finished]⟩
        | true =>
          have ended : run.lease.isEnded = true := by simpa [finished] using acts
          refine ⟨.conclude, rfl, ?_⟩
          cases hijacked : run.lease.hijacked <;> simp [step, finished, ended, hijacked]

def descent : kind.Descent where
  rank := rank
  next := next
  role? := role?
  ended {p} zero := by
    cases p with
    | stopped | panicked => rfl
    | running run => simp [rank, Run.rank] at zero
    | _ => cases zero
  still {c p e} zero := by
    cases p with
    | stopped | panicked => cases e <;> rfl
    | running run => simp [rank, Run.rank] at zero
    | _ => cases zero
  steps := steps_down
  able := able_down

end Poller

namespace Cleaner

def rank : Phase → Nat
  | .stopped | .panicked => 0
  | .idle _ => 1
  | .pruning _ _ => 2
  | .resting _ _ => 3

def descent : kind.Descent where
  rank := rank
  next _ := .loop
  role? _ := some .loop
  ended {p} zero := by
    cases p with
    | stopped | panicked => rfl
    | _ => cases zero
  still {c p e} zero := by
    cases p with
    | stopped | panicked => cases e <;> rfl
    | _ => cases zero
  steps {c p q e} down step := by
    left
    have leads := step_eq_some_iff.mp step
    cases e with
    | rest drawn =>
      obtain ⟨streak, rfl, next⟩ := leads
      rw [if_pos down] at next
      simp [← next, rank]
    | wake =>
      obtain ⟨streak, wakeAt, rfl, -, rfl⟩ := leads
      simp [rank]
    | cut =>
      obtain ⟨⟨streak, wakeAt, rfl⟩, -, rfl⟩ := leads
      simp [rank]
    | pruned r =>
      obtain ⟨streak, cutoff, rfl, rfl⟩ := leads
      split <;> simp [rank]
  able {c p} down going := by
    refine (?_ : ∃ e, (Cleaner.step c p e).isSome = true).imp fun e able => ⟨rfl, able⟩
    cases p with
    | stopped | panicked => exact absurd rfl going
    | idle streak => exact ⟨.rest 0, by simp [Cleaner.step, down]⟩
    | resting streak wakeAt => exact ⟨.cut, by simp [Cleaner.step, down]⟩
    | pruning streak cutoff => exact ⟨.pruned .done, rfl⟩

end Cleaner

namespace Supervised
variable {Phase LoopEvent : Type} {k : LoopKind Phase LoopEvent} (d : k.Descent)
  {c : Poller.Context} {t after : Supervised Phase}

def rank (t : Supervised Phase) : Nat :=
  match t.supervisor with
  | .returned => 0
  | .checking _ => 1
  | .gated | .pausing _ _ => 2
  | .running _ => d.rank t.loop + 1

def next (t : Supervised Phase) : Role :=
  if t.supervisor.isRunning = true ∧ d.rank t.loop ≠ 0 then d.next t.loop else .supervisor

def role? : Event LoopEvent → Option Role
  | .supervisor _ => some .supervisor
  | .loop e => d.role? e

theorem rank_eq_zero_iff : t.rank d = 0 ↔ t.supervisor = .returned := by
  rw [rank]
  split <;> simp_all

theorem steps_down (down : c.shutdown = true) {e : Event LoopEvent}
    (step : t.step k c e = some after) :
    after.rank d < t.rank d ∨
      (after.rank d = t.rank d ∧ after.next d = t.next d ∧ role? d e ≠ some (t.next d)) := by
  cases e with
  | supervisor e =>
    left
    obtain ⟨-, moves, -⟩ := step_supervisor step
    rw [down] at moves
    have leads := Supervisor.step_eq_some_iff.mp moves
    cases e with
    | gateOpened | gateDropped => simp [rank, leads.1, ← leads.2]
    | go =>
      obtain ⟨j, eq, next⟩ := leads
      simp [rank, eq, ← next]
    | runEnded r pause =>
      cases r with
      | ok =>
        obtain ⟨⟨j, eq⟩, next⟩ := leads
        simp [rank, eq, ← next]
      | failed | panicked =>
        obtain ⟨j, eq, -, next⟩ := leads
        simp [rank, eq, ← next]
    | wake =>
      obtain ⟨j, wakeAt, eq, -, next⟩ := leads
      simp [rank, eq, ← next]
    | cut =>
      obtain ⟨eq | ⟨j, wakeAt, eq⟩, -, next⟩ := leads <;> simp [rank, eq, ← next]
  | loop e =>
    obtain ⟨running, same, moves⟩ := step_loop step
    have going : d.rank t.loop ≠ 0 := by
      intro zero
      rw [d.still zero] at moves
      cases moves
    have ranks (s : Supervised Phase) (eq : s.supervisor = t.supervisor) :
        s.rank d = d.rank s.loop + 1 := by
      rw [rank, eq]
      cases supervisor : t.supervisor with
      | running j => rfl
      | _ => simp [supervisor, Supervisor.Phase.isRunning] at running
    rw [ranks after same, ranks t rfl]
    obtain less | ⟨equal, acts, other⟩ := d.steps down moves
    · exact .inl (by omega)
    · refine .inr ⟨by rw [equal], ?_, ?_⟩
      · rw [next, next, same, equal, acts]
      · rwa [next, if_pos ⟨running, going⟩]

theorem able_down (down : c.shutdown = true) (going : t.rank d ≠ 0) :
    ∃ e, role? d e = some (t.next d) ∧ (t.step k c e).isSome = true := by
  cases supervisor : t.supervisor with
  | returned => exact absurd ((rank_eq_zero_iff d).mpr supervisor) going
  | gated =>
    refine ⟨.supervisor .cut, ?_, ?_⟩
    · simp [role?, next, supervisor, Supervisor.Phase.isRunning]
    · simp [step, mayDo, supervisor, Supervisor.step, down]
  | checking j =>
    refine ⟨.supervisor .go, ?_, ?_⟩
    · simp [role?, next, supervisor, Supervisor.Phase.isRunning]
    · simp [step, mayDo, supervisor, Supervisor.step, down]
  | pausing j wakeAt =>
    refine ⟨.supervisor .cut, ?_, ?_⟩
    · simp [role?, next, supervisor, Supervisor.Phase.isRunning]
    · simp [step, mayDo, supervisor, Supervisor.step, down]
  | running j =>
    have active : t.supervisor.isRunning = true := by rw [supervisor]; rfl
    by_cases zero : d.rank t.loop = 0
    · obtain ⟨r, ended⟩ := Option.isSome_iff_exists.mp (d.ended zero)
      refine ⟨.supervisor (.runEnded r (Supervisor.longestPause (j + 1))), ?_, ?_⟩
      · simp [role?, next, zero]
      · have fits : Supervisor.shortestPause (j + 1) ≤ Supervisor.longestPause (j + 1) ∧
            Supervisor.longestPause (j + 1) ≤ Supervisor.longestPause (j + 1) :=
          ⟨Supervisor.shortestPause_le (j + 1), Nat.le_refl _⟩
        cases r <;> simp [step, mayDo, supervisor, Supervisor.step, down, ended, fits]
    · obtain ⟨e, acts, able⟩ := d.able down zero
      refine ⟨.loop e, ?_, ?_⟩
      · rw [next, if_pos ⟨active, zero⟩]
        exact acts
      · simpa [step, active] using able

end Supervised
end DelayedJobs
