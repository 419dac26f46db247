import DelayedJobs.Proofs.Scheduler.Supervisor

/-!
What the steps of a scheduler lead to. The tasks that shutdown has seen to end have ended for good,
so that all of them are over when it begins to close the store.
-/

namespace DelayedJobs

def Closing.seen (total : Nat) : Closing → Nat
  | .open => 0
  | .joining seen => seen
  | .closing | .closed => total

namespace Crew
variable {c after : Crew} {e : Event}

inductive Moves (c : Crew) : Event → Crew → Prop
  | advance {time : Nat} (later : c.now ≤ time) : Moves c (.advance time) { c with now := time }
  | worker {i : Nat} {e : Supervised.Event Poller.Event} {worker : Worker}
      {task : Supervised Poller.Phase} (found : c.workers[i]? = some worker)
      (step : worker.toSupervised.step Poller.kind c.context e = some task) :
      Moves c (.worker i e)
        { c with workers := c.workers.setIfInBounds i { worker with toSupervised := task } }
  | cleaner {e : Supervised.Event Cleaner.Event} {cleaner : Supervised Cleaner.Phase}
      (step : c.cleaner.step Cleaner.kind c.context e = some cleaner) :
      Moves c (.cleaner e) { c with cleaner }
  | drop : Moves c .drop { c with shutdown := true }
  | shutdown (first : c.closing = .open) :
      Moves c .shutdown { c with shutdown := true, closing := .joining 0 }
  | joined {seen : Nat} (waits : c.closing = .joining seen)
      (returned : c.tasks[seen]? = some .returned) :
      Moves c .joined { c with closing := .joining (seen + 1) }
  | close (all : c.closing = .joining c.tasks.size) : Moves c .close { c with closing := .closing }
  | closed (closing : c.closing = .closing) : Moves c .closed { c with closing := .closed }

theorem moves_of_step (step : c.step e = some after) : c.Moves e after := by
  cases e with
  | advance time =>
    obtain ⟨later, eq⟩ := Option.ite_none_right_eq_some.mp step
    cases eq
    exact .advance later
  | worker i e =>
    cases found : c.workers[i]? with
    | none => simp [Crew.step, found] at step
    | some worker =>
      simp only [Crew.step, found, Option.map_eq_some_iff] at step
      obtain ⟨task, moves, rfl⟩ := step
      exact .worker found moves
  | cleaner e =>
    obtain ⟨cleaner, moves, rfl⟩ := Option.map_eq_some_iff.mp step
    exact .cleaner moves
  | drop =>
    cases step
    exact .drop
  | shutdown =>
    obtain ⟨first, eq⟩ := Option.ite_none_right_eq_some.mp step
    cases eq
    exact .shutdown first
  | joined =>
    cases waits : c.closing with
    | joining seen =>
      simp only [Crew.step, waits, Option.ite_none_right_eq_some, Option.some.injEq] at step
      obtain ⟨returned, rfl⟩ := step
      exact .joined waits returned
    | _ => simp [Crew.step, waits] at step
  | close =>
    obtain ⟨all, eq⟩ := Option.ite_none_right_eq_some.mp step
    cases eq
    exact .close all
  | closed =>
    obtain ⟨closing, eq⟩ := Option.ite_none_right_eq_some.mp step
    cases eq
    exact .closed closing

theorem size_tasks (c : Crew) : c.tasks.size = c.workers.size + 1 := by simp [tasks]

theorem getElem?_tasks (c : Crew) (t : Nat) : c.tasks[t]? =
    if t = c.workers.size then some c.cleaner.supervisor
    else c.workers[t]?.map fun worker => worker.supervisor := by
  simp only [tasks, Array.getElem?_push, Array.size_map, Array.getElem?_map]

theorem tasks_worker {i : Nat} {worker : Worker} (found : c.workers[i]? = some worker) :
    c.tasks[i]? = some worker.supervisor := by
  have inside := (Array.getElem?_eq_some_iff.mp found).1
  rw [getElem?_tasks, if_neg (Nat.ne_of_lt inside), found, Option.map_some]

theorem tasks_cleaner (c : Crew) : c.tasks[c.workers.size]? = some c.cleaner.supervisor := by
  rw [getElem?_tasks, if_pos rfl]

theorem workers_set {i : Nat} {worker new : Worker} (found : c.workers[i]? = some worker)
    (j : Nat) :
    (c.workers.setIfInBounds i new)[j]? = if i = j then some new else c.workers[j]? := by
  have inside := (Array.getElem?_eq_some_iff.mp found).1
  rw [Array.getElem?_setIfInBounds, if_pos inside]

theorem Moves.size (h : c.Moves e after) : after.tasks.size = c.tasks.size := by
  cases h <;> simp [tasks]

theorem Moves.returned (h : c.Moves e after) {t : Nat} (returned : c.tasks[t]? = some .returned) :
    after.tasks[t]? = some .returned := by
  cases h with
  | @worker i e worker task found step =>
    by_cases same : i = t
    · subst same
      rw [tasks_worker found] at returned
      rw [Supervised.step_of_returned (Option.some.inj returned)] at step
      cases step
    · rw [getElem?_tasks] at returned ⊢
      simpa only [Array.size_setIfInBounds, workers_set found, if_neg same] using returned
  | @cleaner e cleaner step =>
    by_cases last : t = c.workers.size
    · rw [last, tasks_cleaner] at returned
      rw [Supervised.step_of_returned (Option.some.inj returned)] at step
      cases step
    · rwa [getElem?_tasks, if_neg last] at returned ⊢
  | _ => exact returned

structure Over (c : Crew) : Prop where
  workers : ∀ worker ∈ c.workers, worker.Over Poller.kind
  cleaner : c.cleaner.Over Cleaner.kind

structure Sound (c : Crew) : Prop where
  workers : ∀ (i : Nat) worker, c.workers[i]? = some worker → worker.Watched Poller.kind
  cleaner : c.cleaner.Watched Cleaner.kind
  seen : ∀ t < c.closing.seen c.tasks.size, c.tasks[t]? = some .returned
  down : c.closing ≠ .open → c.shutdown = true

theorem Sound.over_of_seen (h : c.Sound) (all : c.closing.seen c.tasks.size = c.tasks.size) :
    c.Over where
  workers worker member := by
    obtain ⟨i, found⟩ := Array.mem_iff_getElem?.mp member
    have inside := (Array.getElem?_eq_some_iff.mp found).1
    have returned := h.seen i (by rw [all, size_tasks]; omega)
    rw [tasks_worker found] at returned
    have returned := Option.some.inj returned
    exact ⟨returned, h.workers i worker found (by rw [returned]; rfl)⟩
  cleaner := by
    have returned := h.seen c.workers.size (by rw [all, size_tasks]; omega)
    rw [tasks_cleaner] at returned
    have returned := Option.some.inj returned
    exact ⟨returned, h.cleaner (by rw [returned]; rfl)⟩

theorem Sound.moves (h : c.Sound) (moves : c.Moves e after) : after.Sound where
  workers j other at_j := by
    cases moves with
    | worker found step =>
      rw [workers_set found] at at_j
      split at at_j
      next =>
        cases at_j
        exact (h.workers _ _ found).step step
      next => exact h.workers j other at_j
    | _ => exact h.workers j other at_j
  cleaner := by
    cases moves with
    | cleaner step => exact h.cleaner.step step
    | _ => exact h.cleaner
  seen t less := by
    rw [moves.size] at less
    cases moves with
    | shutdown => simp [Closing.seen] at less
    | joined waits returned =>
      simp only [Closing.seen] at less
      obtain less | rfl := Nat.lt_succ_iff_lt_or_eq.mp less
      · exact h.seen t (by rw [waits]; exact less)
      · exact returned
    | close all => exact h.seen t (by rw [all]; exact less)
    | closed closing => exact h.seen t (by rw [closing]; exact less)
    | advance | drop => exact h.seen t less
    | worker found step => exact Moves.returned (.worker found step) (h.seen t less)
    | cleaner step => exact Moves.returned (.cleaner step) (h.seen t less)
  down opened := by
    cases moves with
    | drop | shutdown => rfl
    | joined waits => exact h.down (by simp [waits])
    | close all => exact h.down (by simp [all])
    | closed closing => exact h.down (by simp [closing])
    | _ => exact h.down opened

theorem sound_start (raw : Settings) (clock : Clock) (ids : Nat → WorkerId) :
    (start raw clock ids).Sound where
  workers i worker found := by
    obtain ⟨inside, rfl⟩ := Array.getElem?_eq_some_iff.mp found
    simp only [start, Array.getElem_ofFn]
    exact fun _ => .inl rfl
  cleaner _ := .inl rfl
  seen := by simp [start, Closing.seen]
  down opened := absurd rfl opened

end Crew
end DelayedJobs
