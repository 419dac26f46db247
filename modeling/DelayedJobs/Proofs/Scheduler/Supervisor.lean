import DelayedJobs.Scheduler.Crew

/-!
The cleaner, and loops under supervision. Outside of a run the loop is at its beginning or has
ended; a supervisor that has returned stays so, and none starts a run after shutdown.
-/

namespace DelayedJobs

namespace Cleaner
variable {c : Poller.Context} {p q : Phase}

def Leads (c : Poller.Context) (p q : Phase) : Event → Prop
  | .rest drawn => ∃ streak, p = .idle streak ∧
      if c.shutdown then .stopped = q
      else isSpread (pause streak c.settings.pruneInterval) drawn = true ∧
        .resting streak (c.now + drawn) = q
  | .wake => ∃ streak wakeAt, p = .resting streak wakeAt ∧ wakeAt ≤ c.now ∧
      .pruning streak (c.instant.before c.settings.keepFinished) = q
  | .cut => (∃ streak wakeAt, p = .resting streak wakeAt) ∧ c.shutdown = true ∧ .stopped = q
  | .pruned r => ∃ streak cutoff, p = .pruning streak cutoff ∧
      (if r = .panicked then .panicked else .idle (nextStreak streak r)) = q

theorem step_eq_some_iff {e : Event} : step c p e = some q ↔ Leads c p q e := by
  cases e with
  | rest drawn =>
    cases p with
    | idle streak => cases down : c.shutdown <;> simp [step, Leads, down]
    | _ => simp [step, Leads]
  | pruned r => cases p <;> cases r <;> simp [step, Leads]
  | _ => cases p <;> simp [step, Leads, and_assoc]

theorem isSpread_nanos (plain : Duration) : isSpread plain plain.nanos = true := by
  rw [isSpread, Bool.and_eq_true, decide_eq_true_iff, decide_eq_true_iff]
  omega

end Cleaner

namespace Supervisor
variable {shutdown : Bool} {now : Nat} {p q : Phase}

def Leads (shutdown : Bool) (now : Nat) (p q : Phase) : Event → Prop
  | .gateOpened => p = .gated ∧ .checking 0 = q
  | .gateDropped => p = .gated ∧ .returned = q
  | .go => ∃ k, p = .checking k ∧ (if shutdown then .returned else .running k) = q
  | .runEnded .ok _ => (∃ k, p = .running k) ∧ .returned = q
  | .runEnded _ pause =>
    ∃ k, p = .running k ∧ (shortestPause (k + 1) ≤ pause ∧ pause ≤ longestPause (k + 1)) ∧
      (if shutdown then .returned else .pausing (k + 1) (now + pause.nanos)) = q
  | .wake => ∃ k wakeAt, p = .pausing k wakeAt ∧ wakeAt ≤ now ∧ .checking k = q
  | .cut => (p = .gated ∨ ∃ k wakeAt, p = .pausing k wakeAt) ∧ shutdown = true ∧ .returned = q

theorem step_eq_some_iff {e : Event} : step shutdown now p e = some q ↔
    Leads shutdown now p q e := by
  cases e with
  | runEnded r pause => cases r <;> cases p <;> simp [step, Leads, ← apply_ite some]
  | go | cut => cases p <;> simp [step, Leads, ← apply_ite some]
  | _ => cases p <;> simp [step, Leads, and_assoc]

theorem shortestPause_le (failures : UInt32) : shortestPause failures ≤ longestPause failures := by
  simp only [Duration.le_iff, shortestPause, longestPause, Duration.ofMillis,
    Duration.nanos_ofNanos, Duration.maxNanos]
  omega

theorem not_isRunning_of_shutdown {e : Event} (step : step true now p e = some q) :
    q.isRunning = false := by
  have leads := step_eq_some_iff.mp step
  cases e with
  | gateOpened | gateDropped =>
    obtain ⟨-, rfl⟩ := leads
    rfl
  | go =>
    obtain ⟨k, -, rfl⟩ := leads
    rfl
  | runEnded r pause =>
    cases r with
    | ok =>
      obtain ⟨-, rfl⟩ := leads
      rfl
    | failed | panicked =>
      obtain ⟨k, -, -, rfl⟩ := leads
      rfl
  | wake =>
    obtain ⟨k, wakeAt, -, -, rfl⟩ := leads
    rfl
  | cut =>
    obtain ⟨-, -, rfl⟩ := leads
    rfl

theorem ended_of_isRunning {e : Event} (step : step shutdown now p e = some q)
    (running : p.isRunning = true) : ∃ r pause, e = .runEnded r pause := by
  cases p with
  | running k =>
    cases e with
    | runEnded r pause => exact ⟨r, pause, rfl⟩
    | _ => cases step
  | _ => cases running

end Supervisor

namespace Supervised
variable {Phase LoopEvent : Type} {k : LoopKind Phase LoopEvent} {c : Poller.Context}
  {t after : Supervised Phase}

def AtRest (k : LoopKind Phase LoopEvent) (loop : Phase) : Prop :=
  loop = k.fresh ∨ (k.ending? loop).isSome = true

/-- The supervisor has returned, and its loop was never started or has ended. -/
def Over (k : LoopKind Phase LoopEvent) (t : Supervised Phase) : Prop :=
  t.supervisor = .returned ∧ AtRest k t.loop

def Watched (k : LoopKind Phase LoopEvent) (t : Supervised Phase) : Prop :=
  t.supervisor.isRunning = false → AtRest k t.loop

theorem step_supervisor {e : Supervisor.Event} (step : t.step k c (.supervisor e) = some after) :
    mayDo k t.loop e = true ∧
      Supervisor.step c.shutdown c.now t.supervisor e = some after.supervisor ∧
      after.loop = loopAfter k t.loop e after.supervisor := by
  rw [Supervised.step, Option.ite_none_right_eq_some, Option.map_eq_some_iff] at step
  obtain ⟨may, supervisor, moves, rfl⟩ := step
  exact ⟨may, moves, rfl⟩

theorem step_loop {e : LoopEvent} (step : t.step k c (.loop e) = some after) :
    t.supervisor.isRunning = true ∧ after.supervisor = t.supervisor ∧
      k.step c t.loop e = some after.loop := by
  rw [Supervised.step, Option.ite_none_right_eq_some, Option.map_eq_some_iff] at step
  obtain ⟨running, loop, moves, rfl⟩ := step
  exact ⟨running, rfl, moves⟩

theorem not_isRunning_of_shutdown {e : Supervisor.Event} (down : c.shutdown = true)
    (step : t.step k c (.supervisor e) = some after) : after.supervisor.isRunning = false := by
  obtain ⟨-, moves, -⟩ := step_supervisor step
  rw [down] at moves
  exact Supervisor.not_isRunning_of_shutdown moves

theorem loopAfter_of_idle {loop : Phase} {e : Supervisor.Event} {q : Supervisor.Phase}
    (idle : q.isRunning = false) : loopAfter k loop e q = loop := by
  cases q with
  | running => cases idle
  | _ => cases e <;> rfl

theorem Watched.step (h : t.Watched k) {e : Event LoopEvent} (step : t.step k c e = some after) :
    after.Watched k := by
  intro idle
  cases e with
  | loop e =>
    obtain ⟨running, same, -⟩ := step_loop step
    rw [same, running] at idle
    cases idle
  | supervisor e =>
    obtain ⟨may, moves, loop⟩ := step_supervisor step
    rw [loop, loopAfter_of_idle idle]
    cases running : t.supervisor.isRunning with
    | false => exact h running
    | true =>
      obtain ⟨r, pause, rfl⟩ := Supervisor.ended_of_isRunning moves running
      rw [mayDo, beq_iff_eq] at may
      exact .inr (Option.isSome_of_eq_some may)

theorem step_of_returned (returned : t.supervisor = .returned) (e : Event LoopEvent) :
    t.step k c e = none := by
  cases e with
  | supervisor e => cases e <;> simp [Supervised.step, returned, Supervisor.step]
  | loop e => simp [Supervised.step, returned, Supervisor.Phase.isRunning]

end Supervised
end DelayedJobs
