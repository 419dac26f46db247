import DelayedJobs.Proofs.Crew.Basic
import DelayedJobs.Simulation.Rehearsal
import Mathlib.Logic.Relation

/-!
A rehearsal is a run of the scheduler. Whatever it does to its world it does by events that are
possible there, so that what holds of every run holds of what a rehearsal reports.
-/

namespace DelayedJobs
namespace World

abbrev Reaches : World → World → Prop :=
  Relation.ReflTransGen fun w w' => ∃ e, w.step e = some w'

variable {w w' : World} {e : Event}

theorem reaches_of_step (step : w.step e = some w') : w.Reaches w' := .single ⟨e, step⟩

theorem reaches_iff : w.Reaches w' ↔ ∃ events, w.run? events = some w' := by
  constructor
  · intro reaches
    induction reaches using Relation.ReflTransGen.head_induction_on with
    | refl => exact ⟨[], rfl⟩
    | head step _ ih =>
      obtain ⟨e, step⟩ := step
      obtain ⟨events, run⟩ := ih
      exact ⟨e :: events, by rw [run?, step, Option.bind_some, run]⟩
  · rintro ⟨events, run⟩
    induction events generalizing w with
    | nil =>
      cases run
      exact .refl
    | cons e rest ih =>
      obtain ⟨between, first, later⟩ := Option.bind_eq_some_iff.mp run
      exact (reaches_of_step first).trans (ih later)

theorem crew_of_step (stepped : w.step e = some w') :
    w'.toCrew = w.toCrew ∨ ∃ e', w.toCrew.step e' = some w'.toCrew := by
  cases e with
  | outside r =>
    cases stepped
    exact .inl rfl
  | _ =>
    simp only [step, Option.bind_eq_bind, Option.bind_eq_some_iff, Prod.exists, Option.pure_def,
      Option.some.injEq] at stepped
    obtain ⟨event, store, -, crew, moves, rfl⟩ := stepped
    exact .inr ⟨event, moves⟩

theorem Reaches.induction {P : Crew → Prop} (reaches : w.Reaches w') (start : P w.toCrew)
    (kept : ∀ c e after, P c → Crew.Moves c e after → P after) : P w'.toCrew := by
  induction reaches with
  | refl => exact start
  | tail _ step ih =>
    obtain ⟨e, step⟩ := step
    obtain same | ⟨e', moves⟩ := crew_of_step step
    · rwa [same]
    · exact kept _ e' _ ih (Crew.moves_of_step moves)

theorem Reaches.settings (reaches : w.Reaches w') : w'.settings = w.settings :=
  reaches.induction (P := fun c => c.settings = w.settings) rfl fun _ _ _ same moves => by
    cases moves <;> exact same

theorem Reaches.down (reaches : w.Reaches w') (down : w.shutdown = true) : w'.shutdown = true :=
  reaches.induction (P := fun c => c.shutdown = true) down fun _ _ _ down moves => by
    cases moves <;> first | exact down | rfl

theorem Reaches.sound (reaches : w.Reaches w') (sound : w.Sound) : w'.Sound :=
  reaches.induction sound fun _ _ _ sound moves => sound.moves moves

end World

namespace Simulation
namespace Rehearsal
variable {i : Nat} {task : WorkerTask} {before after : Poller.Phase} {e : World.WorkerEvent}

theorem world_startHandler (r : Rehearsal) (i : Nat) (job : Job) :
    (r.startHandler i job).world = r.world := by
  unfold startHandler
  dsimp only
  split
  · split <;> rfl
  · rfl

theorem world_note (r : Rehearsal) : (r.note i task before after e).world = r.world := by
  unfold note
  split
  · exact world_startHandler _ i _
  · rfl
  · rfl
  · split <;> rfl
  · rfl
  · split <;> rfl
  · rfl
  · rfl

theorem apply_reaches (r : Rehearsal) (e : World.Event) :
    r.world.Reaches (r.apply e).world := by
  rw [apply]
  cases step : r.world.step e with
  | none => exact .refl
  | some w => exact World.reaches_of_step step

theorem goOn_reaches (i fuel : Nat) (r : Rehearsal) : r.world.Reaches (goOn i fuel r).world := by
  induction fuel generalizing r with
  | zero => exact .refl
  | succ fuel ih =>
    rw [goOn]
    split
    next worker task _ _ =>
      split
      next time e _ =>
        split
        next =>
          split
          next world step =>
            have rest := ih (note { r with world } i task worker.loop
              ((world.workers[i]?.map (·.loop)).getD worker.loop) e)
            rw [world_note] at rest
            exact (World.reaches_of_step step).trans rest
          next => exact .refl
        next => exact .refl
      next => exact .refl
    next => exact .refl

theorem cleanOn_reaches (fuel : Nat) (r : Rehearsal) : r.world.Reaches (cleanOn fuel r).world := by
  induction fuel generalizing r with
  | zero => exact .refl
  | succ fuel ih =>
    rw [cleanOn]
    split
    next =>
      split
      next =>
        split
        next world step => exact (World.reaches_of_step step).trans (ih { r with world })
        next => exact .refl
      next => exact .refl
    next => exact .refl

theorem foldl_reaches {α : Type} {f : Rehearsal → α → Rehearsal}
    (step : ∀ (r : Rehearsal) a, r.world.Reaches (f r a).world) (l : List α) (r : Rehearsal) :
    r.world.Reaches (l.foldl f r).world := by
  induction l generalizing r with
  | nil => exact .refl
  | cons a l ih => exact (step r a).trans (ih (f r a))

theorem settle_reaches (r : Rehearsal) : r.world.Reaches r.settle.world :=
  (foldl_reaches (fun (r : Rehearsal) i => goOn_reaches i _ r) _ r).trans (cleanOn_reaches 16 _)

theorem passTo_reaches (time fuel : Nat) (r : Rehearsal) :
    r.world.Reaches (passTo time fuel r).world := by
  induction fuel generalizing r with
  | zero => exact .refl
  | succ fuel ih =>
    rw [passTo]
    split
    next =>
      refine (settle_reaches r).trans ?_
      dsimp only
      split
      next =>
        split
        next => exact (apply_reaches _ _).trans (ih _)
        next => exact apply_reaches _ _
      next => exact apply_reaches _ _
    next => exact .refl

theorem passOut_reaches (fuel : Nat) (r : Rehearsal) : r.world.Reaches (passOut fuel r).world := by
  induction fuel generalizing r with
  | zero => exact .refl
  | succ fuel ih =>
    rw [passOut]
    refine (settle_reaches r).trans ?_
    split
    next => exact .refl
    next =>
      split
      next => exact (apply_reaches _ _).trans (ih _)
      next => exact .refl

theorem drain_reaches (r : Rehearsal) :
    (r.apply .shutdown).world.Reaches r.drain.world := by
  have out := passOut_reaches (horizon r.scenario) (r.apply .shutdown)
  rw [drain]
  generalize passOut (horizon r.scenario) (r.apply .shutdown) = last at out ⊢
  have joined := foldl_reaches (fun (r : Rehearsal) (_ : Nat) => apply_reaches r .joined)
    (List.range last.world.tasks.size) last
  have closes (r : Rehearsal) : r.world.Reaches ((r.apply .close).apply .closed).world :=
    (apply_reaches r .close).trans (apply_reaches _ .closed)
  have whole := out.trans (joined.trans (closes _))
  dsimp only
  split <;> exact whole

theorem schedule_reaches (r : Rehearsal) (payload : Payload) (due : Instant) :
    r.world.Reaches (r.schedule payload due).2.world := by
  rw [schedule]
  split
  · exact .refl
  · exact apply_reaches (r.record payload.kind (.scheduled due payload.data))
      (.outside (.schedule (.ofNat (r.jobs + 1)) payload due))

theorem scheduleJob_reaches {α : Type} [JobKind α] (r : Rehearsal) (job : α) (due : Instant) :
    r.world.Reaches (r.scheduleJob job due).2.world := by
  rw [scheduleJob]
  split
  · exact schedule_reaches r _ due
  · exact .refl

theorem perform_reaches (r : Rehearsal) (action : Action) :
    r.world.Reaches (r.perform action).2.world := by
  cases action with
  | schedule payload due => exact schedule_reaches r payload due
  | scheduleIn payload delay => exact schedule_reaches r payload _
  | scheduleReminder job due => exact scheduleJob_reaches r job due
  | schedulePicky job due => exact scheduleJob_reaches r job due
  | steal until_ =>
    rw [perform]
    split
    · exact apply_reaches r (.outside (.claim thief .latest until_))
    · exact .refl
  | thiefCompletes =>
    cases loot : r.loot with
    | none =>
      simp only [perform, loot]
      exact .refl
    | some job =>
      simp only [perform, loot]
      exact apply_reaches r _
  | thiefRetries due =>
    cases loot : r.loot with
    | none =>
      simp only [perform, loot]
      exact .refl
    | some job =>
      simp only [perform, loot]
      exact apply_reaches r _
  | drop => exact apply_reaches r .drop
  | shutdown => exact (apply_reaches r .shutdown).trans (drain_reaches r)
  | fault | slowKeep | inspect | wait => exact .refl

theorem performAll_reaches (actions : List (Nat × Action)) (r : Rehearsal) :
    r.world.Reaches (performAll actions r).2.world := by
  induction actions generalizing r with
  | nil => exact .refl
  | cons action rest ih =>
    rw [performAll]
    exact ((passTo_reaches _ _ r).trans (perform_reaches _ _)).trans (ih _)

end Rehearsal

/-- A rehearsal reports on a world that its scheduler has come to by possible events: on its safe
settings, on the jobs that are left and on the time of the shutdown. At the end it is cancelled. -/
theorem Scenario.report_of_run (s : Scenario) :
    ∃ w events, (World.start s.settings s.clock Rehearsal.workerId).run? events = some w ∧
      w.Sound ∧ w.shutdown = true ∧ s.report.settings = s.settings.clamped ∧
      s.report.left = w.store.jobs.map (fun j => (j.payload.kind, JobState.ofJob j)) ∧
      ∀ time ∈ s.report.stopped, time = w.now := by
  have run := Rehearsal.performAll_reaches s.actions (.ofScenario s)
  have sound := run.sound (Crew.sound_start s.settings s.clock Rehearsal.workerId)
  rw [report]
  generalize Rehearsal.performAll s.actions (.ofScenario s) = rehearsed at run sound
  obtain ⟨results, r⟩ := rehearsed
  dsimp only at run sound ⊢
  cases down : r.world.shutdown with
  | true =>
    obtain ⟨events, ran⟩ := World.reaches_iff.mp run
    exact ⟨r.world, events, ran, sound, down, run.settings, rfl, nofun⟩
  | false =>
    have opened : r.world.closing = .open := Decidable.not_not.mp fun closing =>
      Bool.false_ne_true (down.symm.trans (sound.down closing))
    have drains := Rehearsal.drain_reaches r
    have shut : (r.apply .shutdown).world.shutdown = true := by
      simp [Rehearsal.apply, World.step, World.crewEvent?, Crew.step, opened]
    have whole : World.Reaches _ r.drain.world :=
      (run.trans (Rehearsal.apply_reaches r .shutdown)).trans drains
    obtain ⟨events, ran⟩ := World.reaches_iff.mp whole
    refine ⟨r.drain.world, events, ran, ?_, drains.down shut, whole.settings, rfl, ?_⟩
    · exact whole.sound (Crew.sound_start s.settings s.clock Rehearsal.workerId)
    · rintro _ ⟨⟩
      rfl

end Simulation
end DelayedJobs
