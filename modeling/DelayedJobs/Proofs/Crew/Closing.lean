import DelayedJobs.Proofs.Crew.Descent

/-!
The shutdown of a scheduler, in whatever order its tasks go on and whatever its store and its
handlers do. Once calls return, handlers end and tasks are not left standing, it comes to its end.
-/

namespace DelayedJobs

namespace Crew
variable {c after : Crew} {e : Event} {i : Nat}

theorem run?_append (a b : List Event) (c : Crew) :
    c.run? (a ++ b) = (c.run? a).bind fun c => c.run? b := by
  induction a generalizing c with
  | nil => rfl
  | cons e rest ih =>
    simp only [List.cons_append, run?, Option.bind_assoc]
    exact congrArg _ (funext ih)

inductive Party where
  | worker (i : Nat) (role : Role)
  | cleaner (role : Role)
  | closer

def Event.party? : Event → Option Party
  | .worker i e => (Supervised.role? Poller.descent e).map (.worker i)
  | .cleaner e => (Supervised.role? Cleaner.descent e).map .cleaner
  | .joined | .close | .closed => some .closer
  | .advance _ | .drop | .shutdown => none

/-- An endless course; at some of its points nothing happens. -/
structure Course where
  event : Nat → Option Event
  crew : Nat → Crew
  next : ∀ n, (crew n).run? (event n).toList = some (crew (n + 1))

namespace Course
variable {course : Course}

/-- No one who can go on from some point on is left standing. -/
def Fair (course : Course) : Prop :=
  ∀ party n, (∀ m, n ≤ m → ∃ e, e.party? = some party ∧ ((course.crew m).step e).isSome = true) →
    ∃ m, n ≤ m ∧ ∃ e, course.event m = some e ∧ e.party? = some party

def events (course : Course) (n : Nat) : List Event := (List.range n).filterMap course.event

theorem step_eq {n : Nat} (h : course.event n = some e) :
    (course.crew n).step e = some (course.crew (n + 1)) := by
  have next := course.next n
  rw [h] at next
  obtain ⟨after, moves, rest⟩ := Option.bind_eq_some_iff.mp next
  rw [moves, ← rest]
  rfl

theorem crew_eq {n : Nat} (h : course.event n = none) : course.crew (n + 1) = course.crew n := by
  have next := course.next n
  rw [h] at next
  exact (Option.some.inj next).symm

theorem stays {P : Crew → Prop} (kept : ∀ {c e after}, c.Moves e after → P c → P after) {m n : Nat}
    (h : P (course.crew m)) (later : m ≤ n) : P (course.crew n) := by
  induction n, later using Nat.le_induction with
  | base => exact h
  | succ n _ ih =>
    cases happens : course.event n with
    | none => rwa [crew_eq happens]
    | some e => exact kept (moves_of_step (step_eq happens)) ih

/-- How far a task is from its end, and who brings it nearer. -/
structure Measure where
  good : Crew → Prop
  rank : Crew → Nat
  next : Crew → Party
  kept : ∀ {c e after}, c.Moves e after → good c → good after
  steps : ∀ {c e after}, good c → c.Moves e after → rank after < rank c ∨
    (rank after = rank c ∧ next after = next c ∧ e.party? ≠ some (next c))
  able : ∀ {c}, good c → rank c ≠ 0 → ∃ e, e.party? = some (next c) ∧ (c.step e).isSome = true

/-- As long as a task goes no further the same party has to act, and can. -/
theorem Fair.nearer (fair : course.Fair) (measure : Measure) {n : Nat}
    (good : measure.good (course.crew n)) (going : measure.rank (course.crew n) ≠ 0) :
    ∃ m, n ≤ m ∧ measure.rank (course.crew m) < measure.rank (course.crew n) := by
  -- Otherwise rank and turn stay as they are; then fairness lets that very party act, and the rank
  -- sinks after all.
  by_contra never
  have high (m : Nat) (later : n ≤ m) :
      ¬measure.rank (course.crew m) < measure.rank (course.crew n) :=
    fun less => never ⟨m, later, less⟩
  have good (m : Nat) (later : n ≤ m) : measure.good (course.crew m) :=
    stays measure.kept good later
  have same (m : Nat) (later : n ≤ m) :
      measure.rank (course.crew m) = measure.rank (course.crew n) ∧
        measure.next (course.crew m) = measure.next (course.crew n) := by
    induction m, later using Nat.le_induction with
    | base => exact ⟨rfl, rfl⟩
    | succ m later ih =>
      cases happens : course.event m with
      | none => rwa [crew_eq happens]
      | some e =>
        obtain less | ⟨rank, next, -⟩ :=
          measure.steps (good m later) (moves_of_step (step_eq happens))
        · exact absurd (ih.1 ▸ less) (high (m + 1) (Nat.le_succ_of_le later))
        · exact ⟨rank.trans ih.1, next.trans ih.2⟩
  obtain ⟨m, later, e, happens, acts⟩ := fair (measure.next (course.crew n)) n fun m later => by
    rw [← (same m later).2]
    exact measure.able (good m later) ((same m later).1 ▸ going)
  obtain less | ⟨-, -, other⟩ := measure.steps (good m later) (moves_of_step (step_eq happens))
  · exact high (m + 1) (Nat.le_succ_of_le later) ((same m later).1 ▸ less)
  · exact other (acts.trans (congrArg some (same m later).2.symm))

theorem Fair.ends (fair : course.Fair) (measure : Measure) {n : Nat}
    (good : measure.good (course.crew n)) : ∃ m, n ≤ m ∧ measure.rank (course.crew m) = 0 := by
  induction rank : measure.rank (course.crew n) using Nat.strong_induction_on generalizing n with
  | _ r ih =>
    by_cases zero : measure.rank (course.crew n) = 0
    · exact ⟨n, Nat.le_refl n, zero⟩
    · obtain ⟨m, later, less⟩ := fair.nearer measure good zero
      obtain ⟨last, after, ends⟩ := ih _ (rank ▸ less) (stays measure.kept good later) rfl
      exact ⟨last, Nat.le_trans later after, ends⟩

end Course

def rankOf (c : Crew) (i : Nat) : Nat :=
  c.workers[i]?.elim 0 fun worker => worker.rank Poller.descent

def nextOf (c : Crew) (i : Nat) : Role :=
  c.workers[i]?.elim .supervisor fun worker => worker.next Poller.descent

def workerMeasure (i : Nat) : Course.Measure where
  good c := c.shutdown = true
  rank c := c.rankOf i
  next c := .worker i (c.nextOf i)
  kept := Moves.down
  steps {c e after} down moves := by
    cases moves with
    | @worker j e worker task found step =>
      simp only [rankOf, nextOf, workers_set found]
      by_cases same : j = i
      · subst same
        obtain less | ⟨rank, next, other⟩ := Supervised.steps_down Poller.descent down step
        · exact .inl (by simpa [found] using less)
        · exact .inr (by simpa [found, Event.party?] using ⟨rank, next, other⟩)
      · exact .inr (by simp [same, Event.party?])
    | cleaner step => exact .inr ⟨rfl, rfl, by simp [Event.party?]⟩
    | _ => exact .inr ⟨rfl, rfl, nofun⟩
  able {c} down going := by
    cases found : c.workers[i]? with
    | none => simp [rankOf, found] at going
    | some worker =>
      have going : worker.rank Poller.descent ≠ 0 := by simpa [rankOf, found] using going
      obtain ⟨e, acts, able⟩ := Supervised.able_down (c := c.context) Poller.descent down going
      refine ⟨.worker i e, ?_, ?_⟩
      · simp [Event.party?, acts, nextOf, found]
      · simpa [Crew.step, found] using able

def cleanerMeasure : Course.Measure where
  good c := c.shutdown = true
  rank c := c.cleaner.rank Cleaner.descent
  next c := .cleaner (c.cleaner.next Cleaner.descent)
  kept := Moves.down
  steps {c e after} down moves := by
    cases moves with
    | worker found step => exact .inr ⟨rfl, rfl, by simp [Event.party?]⟩
    | cleaner step => simpa [Event.party?] using Supervised.steps_down Cleaner.descent down step
    | _ => exact .inr ⟨rfl, rfl, nofun⟩
  able {c} down going := by
    obtain ⟨e, acts, able⟩ := Supervised.able_down (c := c.context) Cleaner.descent down going
    exact ⟨.cleaner e, by simp [Event.party?, acts], by simpa [Crew.step] using able⟩

theorem Moves.called (h : c.Moves e after) (called : c.closing ≠ .open) :
    after.closing ≠ .open := by
  cases h with
  | shutdown first => exact absurd first called
  | joined | close | closed => nofun
  | _ => exact called

theorem Sound.seen_le (h : c.Sound) : c.closing.seen c.tasks.size ≤ c.tasks.size := by
  by_contra more
  have last := h.seen c.tasks.size (Nat.lt_of_not_le more)
  simp at last

/-- Shutdown has been called, and the tasks that it has yet to see have ended too. -/
structure Gathering (c : Crew) : Prop where
  called : c.closing ≠ .open
  returned : ∀ t < c.tasks.size, c.tasks[t]? = some .returned
  seen : c.closing.seen c.tasks.size ≤ c.tasks.size

def remaining (c : Crew) : Nat :=
  match c.closing with
  | .open | .closed => 0
  | .closing => 1
  | .joining seen => c.tasks.size - seen + 2

theorem Gathering.moves (h : c.Gathering) (moves : c.Moves e after) : after.Gathering where
  called := moves.called h.called
  returned t less := moves.returned (h.returned t (moves.size ▸ less))
  seen := by
    rw [moves.size]
    cases moves with
    | shutdown => exact Nat.zero_le _
    | joined waits returned => exact (Array.getElem?_eq_some_iff.mp returned).1
    | close | closed => exact Nat.le_refl _
    | _ => exact h.seen

def closerMeasure : Course.Measure where
  good := Gathering
  rank := remaining
  next _ := .closer
  kept moves h := h.moves moves
  steps {c e after} h moves := by
    have size := moves.size
    cases moves with
    | shutdown first => exact absurd first h.called
    | @joined seen waits returned =>
      have less := (Array.getElem?_eq_some_iff.mp returned).1
      simp only [remaining, waits, size]
      omega
    | close all => simp [remaining, all]
    | closed closing => simp [remaining, closing]
    | advance | drop => exact .inr ⟨rfl, rfl, nofun⟩
    | worker | cleaner => exact .inr ⟨by simp only [remaining, size], rfl, by simp [Event.party?]⟩
  able {c} h going := by
    cases closing : c.closing with
    | «open» => exact absurd closing h.called
    | closed => simp [remaining, closing] at going
    | closing => exact ⟨.closed, rfl, by simp [Crew.step, closing]⟩
    | joining seen =>
      have most := h.seen
      rw [closing] at most
      obtain less | rfl := Nat.lt_or_eq_of_le most
      · exact ⟨.joined, rfl, by simp [Crew.step, closing, h.returned seen less]⟩
      · exact ⟨.close, rfl, by simp [Crew.step, closing]⟩

namespace Course
variable {course : Course} {n : Nat}

theorem size (course : Course) (m : Nat) :
    (course.crew m).tasks.size = (course.crew 0).tasks.size :=
  stays (P := fun c => c.tasks.size = (course.crew 0).tasks.size)
    (fun moves eq => moves.size.trans eq) rfl (Nat.zero_le m)

theorem Fair.returns (fair : course.Fair) (down : (course.crew n).shutdown = true) {t : Nat}
    (less : t < (course.crew n).tasks.size) :
    ∃ m, n ≤ m ∧ (course.crew m).tasks[t]? = some .returned := by
  by_cases last : t = (course.crew n).workers.size
  · obtain ⟨m, later, ended⟩ := fair.ends cleanerMeasure down
    have same := (size course m).trans (size course n).symm
    rw [size_tasks, size_tasks, Nat.add_right_cancel_iff, ← last] at same
    refine ⟨m, later, ?_⟩
    rw [← same, tasks_cleaner, (Supervised.rank_eq_zero_iff _).mp ended]
  · obtain ⟨m, later, ended⟩ := fair.ends (workerMeasure t) down
    have same := (size course m).trans (size course n).symm
    rw [size_tasks] at less
    rw [size_tasks, size_tasks, Nat.add_right_cancel_iff] at same
    have found := Array.getElem?_eq_getElem (show t < (course.crew m).workers.size by omega)
    have zero : (course.crew m).rankOf t = 0 := ended
    rw [rankOf, found] at zero
    refine ⟨m, later, ?_⟩
    rw [tasks_worker found, (Supervised.rank_eq_zero_iff _).mp zero]

theorem Fair.gathers (fair : course.Fair) (down : (course.crew n).shutdown = true) (k : Nat)
    (most : k ≤ (course.crew n).tasks.size) :
    ∃ m, n ≤ m ∧ ∀ t < k, (course.crew m).tasks[t]? = some .returned := by
  induction k with
  | zero => exact ⟨n, Nat.le_refl n, by simp⟩
  | succ k ih =>
    obtain ⟨m, later, before⟩ := ih (Nat.le_of_succ_le most)
    have size := (size course m).trans (size course n).symm
    obtain ⟨l, after, returned⟩ := fair.returns (stays Moves.down down later) (size ▸ most)
    refine ⟨l, Nat.le_trans later after, fun t less => ?_⟩
    obtain less | rfl := Nat.lt_succ_iff_lt_or_eq.mp less
    · exact stays (P := fun c => c.tasks[t]? = some .returned) (fun moves => moves.returned)
        (before t less) after
    · exact returned

theorem Fair.closes (fair : course.Fair) (sound : (course.crew 0).Sound)
    (called : (course.crew 0).closing ≠ .open) : ∃ n, (course.crew n).closing = .closed := by
  obtain ⟨m, -, returned⟩ := fair.gathers (sound.down called) _ (Nat.le_refl _)
  have called : (course.crew m).closing ≠ .open :=
    stays (P := fun c => c.closing ≠ .open) Moves.called called (Nat.zero_le m)
  have sound : (course.crew m).Sound :=
    stays (P := Sound) (fun moves sound => sound.moves moves) sound (Nat.zero_le m)
  have gathering : (course.crew m).Gathering :=
    { called, returned := fun t less => returned t (size course m ▸ less), seen := sound.seen_le }
  obtain ⟨n, later, ended⟩ := fair.ends closerMeasure gathering
  have called : (course.crew n).closing ≠ .open :=
    stays (P := fun c => c.closing ≠ .open) Moves.called called later
  refine ⟨n, ?_⟩
  change (course.crew n).remaining = 0 at ended
  cases closing : (course.crew n).closing with
  | «open» => exact absurd closing called
  | closed => rfl
  | _ => simp [remaining, closing] at ended

theorem run?_events (n : Nat) : (course.crew 0).run? (course.events n) = some (course.crew n) := by
  induction n with
  | zero => rfl
  | succ n ih =>
    have last : [n].filterMap course.event = (course.event n).toList := by
      cases h : course.event n <;> simp [h]
    rw [events, List.range_succ, List.filterMap_append, run?_append, ← events, ih, last]
    exact course.next n

def through (c : Crew) (events : List Event) (possible : (c.run? events).isSome = true) :
    Course where
  event n := events[n]?
  crew n := (c.run? (events.take n)).getD c
  next n := by
    have reached (n : Nat) : ∃ after, c.run? (events.take n) = some after := by
      rw [← List.take_append_drop n events, run?_append] at possible
      exact Option.isSome_iff_exists.mp (Option.isSome_of_isSome_bind possible)
    obtain ⟨before, first⟩ := reached n
    obtain ⟨after, next⟩ := reached (n + 1)
    rw [next]
    rw [List.take_add_one, run?_append, first] at next
    rw [first]
    exact next

end Course

theorem Over.step_of_closed (gone : c.Over) (closed : c.closing = .closed) {party : Party}
    (acts : e.party? = some party) : c.step e = none := by
  cases e with
  | advance | drop | shutdown => cases acts
  | worker i e =>
    cases found : c.workers[i]? with
    | none => simp [Crew.step, found]
    | some worker =>
      have returned := (gone.workers worker (Array.mem_of_getElem? found)).1
      simp [Crew.step, found, Supervised.step_of_returned returned]
  | cleaner e => rw [Crew.step, Supervised.step_of_returned gone.cleaner.1, Option.map_none]
  | joined | close | closed => simp [Crew.step, closed]

theorem Course.through_fair {events : List Event} (run : c.run? events = some after)
    (gone : after.Over) (closed : after.closing = .closed) :
    (through c events (Option.isSome_of_eq_some run)).Fair := by
  intro party n able
  obtain ⟨e, acts, able⟩ := able (n + events.length) (Nat.le_add_right n _)
  have last : (through c events (Option.isSome_of_eq_some run)).crew (n + events.length) =
      after := by
    simp only [through, List.take_of_length_le (Nat.le_add_left events.length n), run,
      Option.getD_some]
  rw [last, gone.step_of_closed closed acts] at able
  cases able

/-- After a cancellation no claim and no run begins; the store is closed once, when all tasks have
ended, and nothing is asked of it from then on; before that every job that was claimed has had its
last call or was reported lost. A shutdown that is left to go on comes to its end. -/
theorem shuts_down_in_order (raw : Settings) (clock : Clock) (ids : Nat → WorkerId)
    {events : List Event} (run : (start raw clock ids).run? events = some c) :
    let log := (start raw clock ids).log events
    (log.Pairwise fun later earlier => earlier.isCancel = true → later.isStart = false) ∧
      (log.Pairwise fun later earlier => earlier.isClose = true → later.isLate = true) ∧
      log.countP Entry.isClose ≤ 1 ∧ (.closes ∈ log → c.Over) ∧
      (∀ later earlier, log = later ++ .closes :: earlier → AllSettled earlier) ∧
      (c.closing ≠ .open → ∀ course : Course, course.crew 0 = c → course.Fair →
        ∃ n, (course.crew n).closing = .closed ∧
          ((start raw clock ids).log (events ++ course.events n)).countP Entry.isClose = 1) := by
  intro log
  have orderly (events : List Event) (c : Crew) (run : (start raw clock ids).run? events = some c) :
      c.Orderly ((start raw clock ids).log events) := by
    simpa using (orderly_start raw clock ids).run run
  have now := orderly events c run
  refine ⟨now.starts, now.late, ?_, fun closes => ?_, now.settled, ?_⟩
  · rw [now.closes]
    exact Bool.toNat_le c.closing.begun
  · exact now.sound.over_of_begun (now.begun closes rfl)
  · rintro called course rfl fair
    obtain ⟨n, closed⟩ := fair.closes now.sound called
    refine ⟨n, closed, ?_⟩
    have run : (start raw clock ids).run? (events ++ course.events n) = some (course.crew n) := by
      rw [run?_append, run]
      exact Course.run?_events n
    rw [(orderly _ _ run).closes, closed]
    rfl

def lone : Crew := start { workerCount := 1 } ⟨.epoch⟩ fun _ => ⟨.ofNat 7⟩

def interrupted : List Event :=
  [.cleaner (.supervisor .gateOpened), .worker 0 (.supervisor .gateOpened),
    .worker 0 (.supervisor .go), .worker 0 (.loop .go),
    .worker 0 (.loop (.claimed (.job (Job.new (.ofNat 1) ⟨"mail", .null⟩ .epoch)))), .shutdown]

def windDown : List Event :=
  [.advance 5000000000, .cleaner (.supervisor .go), .worker 0 (.loop (.lease .wake)),
    .worker 0 (.loop (.handlerEnded .failed)), .worker 0 (.loop .finish),
    .worker 0 (.loop (.lease .finish)), .worker 0 (.loop .conclude),
    .worker 0 (.loop (.finalized .done)), .worker 0 (.loop .go),
    .worker 0 (.supervisor (.runEnded .ok .zero)), .joined, .joined, .close, .closed]

theorem interrupted_closes : ∃ c, lone.run? interrupted = some c ∧
    ∃ course : Course, course.crew 0 = c ∧ course.Fair ∧ ∃ n, (course.crew n).closing = .closed ∧
      (lone.log (interrupted ++ course.events n)).countP Entry.isClose = 1 := by
  have halfway : (lone.run? interrupted).any (fun c => decide (c.closing = .joining 0)) = true := by
    decide +kernel
  have through : (lone.run? (interrupted ++ windDown)).any
      (fun c => decide (c.closing = .closed)) = true := by decide +kernel
  obtain ⟨c, run, waits⟩ := (Option.any_eq_true _ _).mp halfway
  obtain ⟨last, whole, closed⟩ := (Option.any_eq_true _ _).mp through
  rw [decide_eq_true_iff] at waits closed
  have gone : last.Over :=
    ((orderly_start ..).run whole).sound.over_of_begun (by rw [closed]; rfl)
  rw [run?_append, run] at whole
  have fair := Course.through_fair whole gone closed
  refine ⟨c, run, _, rfl, fair, ?_⟩
  exact (shuts_down_in_order _ _ _ run).2.2.2.2.2 (by simp [waits]) _ rfl fair

end Crew
end DelayedJobs
