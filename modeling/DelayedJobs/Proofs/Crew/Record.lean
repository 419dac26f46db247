import DelayedJobs.Proofs.Crew.Basic
import DelayedJobs.Proofs.Scheduler.Poller

/-!
What is written down of a scheduler, the latest first: its calls to the store, the starts of its
loops, and how it is shut down. The record tells nothing new after a cancellation, nothing at all
after the store has begun to close, and for every job that a worker has claimed what became of it.
-/

namespace DelayedJobs

def Closing.begun : Closing → Bool
  | closing | closed => true
  | _ => false

namespace Crew

inductive Entry where
  | cancelled
  | started (worker : Option Nat)
  | claims (i : Nat)
  | claimed (i : Nat) (job : Job)
  | renews (i : Nat) (job : Job)
  | lost (i : Nat) (job : Job)
  | called (i : Nat) (job : Job) (call : Poller.Finalization)
  | prunes
  | closes
  | closed

namespace Entry

def isStart : Entry → Bool
  | started _ | claims _ => true
  | _ => false

def isCancel : Entry → Bool
  | cancelled => true
  | _ => false

def isClose : Entry → Bool
  | closes => true
  | _ => false

/-- What may be told after the store has begun to close. -/
def isLate : Entry → Bool
  | cancelled | closed => true
  | _ => false

/-- Whether a loop tells it, and not who shuts the scheduler down. -/
def ofTask : Entry → Bool
  | cancelled | closes | closed => false
  | _ => true

theorem isCancel_of_ofTask {x : Entry} (h : x.ofTask = true) : x.isCancel = false := by
  cases x <;> first | rfl | cases h

theorem isClose_of_ofTask {x : Entry} (h : x.ofTask = true) : x.isClose = false := by
  cases x <;> first | rfl | cases h

def claim? (i : Nat) : Entry → Option Job
  | claimed j job => if j = i then some job else none
  | _ => none

def Settles (i : Nat) (job : Job) : Entry → Prop
  | called j held _ | lost j held => j = i ∧ held = job
  | _ => False

end Entry

def workerTells (i : Nat) (after : Supervised Poller.Phase) :
    Supervised.Event Poller.Event → Option Entry
  | .supervisor .go => if after.supervisor.isRunning then some (.started i) else none
  | .loop (.claimed (.job job)) => some (.claimed i job)
  | .loop e =>
    match e, after.loop with
    | .go, .claiming _ _ => some (.claims i)
    | .lease .wake, .running run => some (.renews i run.job)
    | .lease (.answer .lost), .running run => some (.lost i run.job)
    | .conclude, .finalizing job call => some (.called i job call)
    | _, _ => none
  | _ => none

def cleanerTells (after : Supervised Cleaner.Phase) :
    Supervised.Event Cleaner.Event → Option Entry
  | .supervisor .go => if after.supervisor.isRunning then some (.started none) else none
  | .loop .wake => some .prunes
  | _ => none

def tells (after : Crew) : Event → Option Entry
  | .worker i e => after.workers[i]?.bind fun worker => workerTells i worker.toSupervised e
  | .cleaner e => cleanerTells after.cleaner e
  | .drop | .shutdown => some .cancelled
  | .close => some .closes
  | .closed => some .closed
  | .advance _ | .joined => none

def log (c : Crew) : List Event → List Entry
  | [] => []
  | e :: rest =>
    match c.step e with
    | some after => after.log rest ++ (after.tells e).toList
    | none => []

/-- Worker `i` has settled a job that it claimed before, with no other claim in between. -/
def Settled (i : Nat) (job : Job) (log : List Entry) : Prop :=
  ∃ later e earlier, log = later ++ e :: earlier ∧ e.Settles i job ∧
    ∀ x ∈ earlier, x.claim? i = none

/-- Worker `i` is at work on a job whose lease has not been reported lost. -/
def Holds (c : Crew) (i : Nat) (job : Job) : Prop :=
  ∃ worker run, c.workers[i]? = some worker ∧ worker.loop = .running run ∧ run.job = job ∧
    run.lease.hijacked = false

variable {c after : Crew} {e : Event} {log : List Entry} {i : Nat} {job : Job}

theorem Settled.append (h : Settled i job log) (new : List Entry) :
    Settled i job (new ++ log) := by
  obtain ⟨later, e, earlier, rfl, rest⟩ := h
  exact ⟨new ++ later, e, earlier, (List.append_assoc ..).symm, rest⟩

theorem holds_of_step {t task : Supervised Poller.Phase} {context : Poller.Context}
    {e : Supervised.Event Poller.Event} (watched : t.Watched Poller.kind)
    (step : t.step Poller.kind context e = some task) {run : Poller.Run}
    (running : t.loop = .running run) (held : run.lease.hijacked = false) :
    (∃ x ∈ workerTells i task e, x.Settles i run.job) ∨
      (∀ x ∈ workerTells i task e, x.claim? i = none) ∧
        ∃ later, task.loop = .running later ∧ later.job = run.job ∧
          later.lease.hijacked = false := by
  cases e with
  | supervisor e =>
    obtain ⟨may, moves, -⟩ := Supervised.step_supervisor step
    cases active : t.supervisor.isRunning with
    | false => simpa [Supervised.AtRest, Poller.kind, running] using watched active
    | true =>
      obtain ⟨r, pause, rfl⟩ := Supervisor.ended_of_isRunning moves active
      simp [Supervised.mayDo, Poller.kind, running] at may
  | loop e =>
    obtain ⟨-, -, moves⟩ := Supervised.step_loop step
    rw [running] at moves
    have leads := Poller.step_eq_some_iff.mp moves
    cases e with
    | go => cases leads.1
    | claimed | cut | finalized => simp [Poller.Leads] at leads
    | wake => simp [Poller.Leads] at leads
    | handlerEnded r =>
      obtain ⟨_, ⟨⟩, -, next⟩ := leads
      exact .inr ⟨by simp [workerTells], _, next.symm, rfl, held⟩
    | finish =>
      obtain ⟨_, ⟨⟩, -, next⟩ := leads
      exact .inr ⟨by simp [workerTells], _, next.symm, rfl, held⟩
    | conclude =>
      obtain ⟨_, ⟨⟩, -, next⟩ := leads
      rw [held, if_neg Bool.false_ne_true] at next
      exact .inl (by simp [workerTells, ← next, Entry.Settles])
    | lease e =>
      obtain ⟨_, ⟨⟩, -, lease, upkeep, next⟩ := leads
      have leads := Lease.step_eq_some_iff.mp upkeep
      cases e with
      | wake =>
        obtain ⟨wakeAt, -, -, rfl⟩ := leads
        exact .inr ⟨by simp [workerTells, ← next, Entry.claim?], _, next.symm, rfl, rfl⟩
      | finish =>
        obtain ⟨-, rfl⟩ := leads
        exact .inr ⟨by simp [workerTells], _, next.symm, rfl, rfl⟩
      | answer r =>
        obtain ⟨-, rfl⟩ := leads
        cases r with
        | lost => exact .inl (by simp [workerTells, ← next, Entry.Settles])
        | _ => exact .inr ⟨by simp [workerTells], _, next.symm, rfl, rfl⟩

theorem workerTells_cases {task : Supervised Poller.Phase} {e : Supervised.Event Poller.Event}
    {x : Entry} (told : x ∈ workerTells i task e) :
    (x = .started i ∧ e = .supervisor .go ∧ task.supervisor.isRunning = true) ∨
    (x = .claims i ∧ e = .loop .go ∧ ∃ now until_, task.loop = .claiming now until_) ∨
    (∃ job, x = .claimed i job ∧ e = .loop (.claimed (.job job))) ∨
    ∃ job, x = .renews i job ∨ x = .lost i job ∨ ∃ call, x = .called i job call := by
  unfold workerTells at told
  split at told
  next =>
    obtain ⟨running, eq⟩ := Option.ite_none_right_eq_some.mp told
    exact .inl ⟨(Option.some.inj eq).symm, rfl, running⟩
  next job => exact .inr (.inr (.inl ⟨job, (Option.some.inj told).symm, rfl⟩))
  next e _ =>
    split at told
    next now until_ claiming _ =>
      exact .inr (.inl ⟨(Option.some.inj told).symm, rfl, now, until_, claiming⟩)
    next run _ _ => exact .inr (.inr (.inr ⟨run.job, .inl (Option.some.inj told).symm⟩))
    next run _ _ => exact .inr (.inr (.inr ⟨run.job, .inr (.inl (Option.some.inj told).symm)⟩))
    next job call _ _ =>
      exact .inr (.inr (.inr ⟨job, .inr (.inr ⟨call, (Option.some.inj told).symm⟩)⟩))
    next => cases told
  next => cases told

theorem cleanerTells_cases {task : Supervised Cleaner.Phase} {e : Supervised.Event Cleaner.Event}
    {x : Entry} (told : x ∈ cleanerTells task e) :
    (x = .started none ∧ e = .supervisor .go ∧ task.supervisor.isRunning = true) ∨ x = .prunes := by
  unfold cleanerTells at told
  split at told
  next =>
    obtain ⟨running, eq⟩ := Option.ite_none_right_eq_some.mp told
    exact .inl ⟨(Option.some.inj eq).symm, rfl, running⟩
  next => exact .inr (Option.some.inj told).symm
  next => cases told

theorem ofTask_of_workerTells {task : Supervised Poller.Phase}
    {e : Supervised.Event Poller.Event} {x : Entry} (told : x ∈ workerTells i task e) :
    x.ofTask = true := by
  obtain ⟨rfl, -⟩ | ⟨rfl, -⟩ | ⟨job, rfl, -⟩ | ⟨job, rfl | rfl | ⟨call, rfl⟩⟩ :=
    workerTells_cases told
  all_goals rfl

theorem ofTask_of_cleanerTells {task : Supervised Cleaner.Phase}
    {e : Supervised.Event Cleaner.Event} {x : Entry} (told : x ∈ cleanerTells task e) :
    x.ofTask = true := by
  obtain ⟨rfl, -⟩ | rfl := cleanerTells_cases told <;> rfl

theorem claim?_workerTells {task : Supervised Poller.Phase} {e : Supervised.Event Poller.Event}
    {j : Nat} (other : j ≠ i) {x : Entry} (told : x ∈ workerTells j task e) :
    x.claim? i = none := by
  obtain ⟨rfl, -⟩ | ⟨rfl, -⟩ | ⟨job, rfl, -⟩ | ⟨job, rfl | rfl | ⟨call, rfl⟩⟩ :=
    workerTells_cases told
  all_goals simp [Entry.claim?, other]

theorem claim?_cleanerTells {task : Supervised Cleaner.Phase}
    {e : Supervised.Event Cleaner.Event} {x : Entry} (told : x ∈ cleanerTells task e) :
    x.claim? i = none := by
  obtain ⟨rfl, -⟩ | rfl := cleanerTells_cases told <;> rfl

theorem tells_worker {worker : Worker} {task : Supervised Poller.Phase}
    {e : Supervised.Event Poller.Event} (found : c.workers[i]? = some worker) :
    tells { c with workers := c.workers.setIfInBounds i { worker with toSupervised := task } }
      (.worker i e) = workerTells i task e := by
  rw [tells, workers_set found, if_pos rfl, Option.bind_some]

/-- Nothing is begun after shutdown but what comes of jobs that are already claimed. -/
theorem Moves.not_isStart (h : c.Moves e after) (down : c.shutdown = true) :
    ∀ x ∈ after.tells e, x.isStart = false := by
  intro x told
  cases h with
  | @worker i e worker task found step =>
    rw [tells_worker found] at told
    obtain ⟨rfl, rfl, running⟩ | ⟨rfl, rfl, now, until_, claiming⟩ | ⟨job, rfl, rfl⟩ |
      ⟨job, rfl | rfl | ⟨call, rfl⟩⟩ := workerTells_cases told
    · rw [Supervised.not_isRunning_of_shutdown down step] at running
      cases running
    · obtain ⟨-, -, moves⟩ := Supervised.step_loop step
      have stopped := (Poller.step_eq_some_iff.mp moves).2
      rw [context, if_pos down] at stopped
      exact nomatch stopped.trans claiming
    all_goals rfl
  | cleaner step =>
    obtain ⟨rfl, rfl, running⟩ | rfl := cleanerTells_cases told
    · rw [Supervised.not_isRunning_of_shutdown down step] at running
      cases running
    · rfl
  | advance | joined => cases told
  | drop | shutdown | close | closed =>
    cases told
    rfl

theorem Moves.down (h : c.Moves e after) (down : c.shutdown = true) : after.shutdown = true := by
  cases h with
  | drop | shutdown => rfl
  | _ => exact down

theorem Moves.isCancel (h : c.Moves e after) :
    ∀ x ∈ after.tells e, x.isCancel = true → after.shutdown = true := by
  intro x told cancel
  cases h with
  | worker found step =>
    rw [tells_worker found] at told
    rw [Entry.isCancel_of_ofTask (ofTask_of_workerTells told)] at cancel
    cases cancel
  | cleaner step =>
    rw [Entry.isCancel_of_ofTask (ofTask_of_cleanerTells told)] at cancel
    cases cancel
  | advance | joined => cases told
  | drop | shutdown => rfl
  | close | closed =>
    cases told
    cases cancel

theorem Sound.over_of_begun (h : c.Sound) (begun : c.closing.begun = true) : c.Over := by
  refine h.over_of_seen ?_
  cases closing : c.closing with
  | closing | closed => rfl
  | _ => simp [closing, Closing.begun] at begun

theorem countP_isClose {told : Option Entry} (h : ∀ x ∈ told, x.ofTask = true) :
    told.toList.countP Entry.isClose = 0 := by
  rw [List.countP_eq_zero]
  intro x member
  rw [Entry.isClose_of_ofTask (h x (Option.mem_toList.mp member))]
  exact Bool.false_ne_true

theorem Moves.isClose (h : c.Moves e after) :
    (after.tells e).toList.countP Entry.isClose + c.closing.begun.toNat =
      after.closing.begun.toNat := by
  cases h with
  | worker found step =>
    rw [tells_worker found, countP_isClose fun x => ofTask_of_workerTells, Nat.zero_add]
  | cleaner step => rw [tells, countP_isClose fun x => ofTask_of_cleanerTells, Nat.zero_add]
  | advance | drop => exact Nat.zero_add _
  | shutdown first => simp [tells, first, Closing.begun, Entry.isClose]
  | joined waits => simp [tells, waits, Closing.begun]
  | close all => simp [tells, all, Closing.begun, Entry.isClose]
  | closed closing => simp [tells, closing, Closing.begun, Entry.isClose]

theorem Moves.isLate (h : c.Moves e after) (sound : c.Sound) (begun : c.closing.begun = true) :
    ∀ x ∈ after.tells e, x.isLate = true := by
  have gone := sound.over_of_begun begun
  intro x told
  cases h with
  | worker found step =>
    have returned := (gone.workers _ (Array.mem_of_getElem? found)).1
    rw [Supervised.step_of_returned returned] at step
    cases step
  | cleaner step =>
    rw [Supervised.step_of_returned gone.cleaner.1] at step
    cases step
  | advance | joined => cases told
  | close all => simp [all, Closing.begun] at begun
  | drop | shutdown | closed =>
    cases told
    rfl

theorem Moves.holds (h : c.Moves e after) (sound : c.Sound) (holds : c.Holds i job) :
    (∃ x ∈ after.tells e, x.Settles i job) ∨
      (∀ x ∈ after.tells e, x.claim? i = none) ∧ after.Holds i job := by
  obtain ⟨worker, run, found, running, rfl, held⟩ := holds
  cases h with
  | @worker j e other task at_j step =>
    rw [tells_worker at_j]
    by_cases same : j = i
    · subst same
      cases found.symm.trans at_j
      obtain settles | ⟨quiet, later, goes, job, held⟩ :=
        holds_of_step (i := j) (sound.workers j worker found) step running held
      · exact .inl settles
      · refine .inr ⟨quiet, { worker with toSupervised := task }, later, ?_, goes, job, held⟩
        rw [workers_set found, if_pos rfl]
    · refine .inr ⟨fun x => claim?_workerTells same, worker, run, ?_, running, rfl, held⟩
      rw [workers_set at_j, if_neg same]
      exact found
  | cleaner step =>
    exact .inr ⟨fun x => claim?_cleanerTells, worker, run, found, running, rfl, held⟩
  | advance | joined => exact .inr ⟨by simp [tells], worker, run, found, running, rfl, held⟩
  | drop | shutdown | close | closed =>
    refine .inr ⟨fun x told => ?_, worker, run, found, running, rfl, held⟩
    cases told
    rfl

theorem Moves.claimed (h : c.Moves e after) (told : .claimed i job ∈ after.tells e) :
    after.Holds i job := by
  cases h with
  | @worker j e worker task found step =>
    rw [tells_worker found] at told
    obtain ⟨eq, -⟩ | ⟨eq, -⟩ | ⟨job, eq, rfl⟩ | ⟨job, eq | eq | ⟨call, eq⟩⟩ :=
      workerTells_cases told
    all_goals cases eq
    obtain ⟨-, -, moves⟩ := Supervised.step_loop step
    have next := (Poller.step_eq_some_iff.mp moves).2
    exact ⟨_, _, by rw [workers_set found, if_pos rfl], next.symm, rfl, rfl⟩
  | cleaner step => obtain ⟨eq, -⟩ | eq := cleanerTells_cases told <;> cases eq
  | _ => cases told

theorem Moves.closes (h : c.Moves e after) (told : .closes ∈ after.tells e) :
    c.closing = .joining c.tasks.size := by
  cases h with
  | close all => exact all
  | worker found step =>
    rw [tells_worker found] at told
    cases ofTask_of_workerTells told
  | cleaner step => cases ofTask_of_cleanerTells told
  | _ => cases told

def AllSettled (log : List Entry) : Prop :=
  ∀ later earlier i job, log = later ++ .claimed i job :: earlier → Settled i job later

structure Orderly (c : Crew) (log : List Entry) : Prop where
  sound : c.Sound
  down : ∀ x ∈ log, x.isCancel = true → c.shutdown = true
  starts : log.Pairwise fun later earlier => earlier.isCancel = true → later.isStart = false
  closes : log.countP Entry.isClose = c.closing.begun.toNat
  late : log.Pairwise fun later earlier => earlier.isClose = true → later.isLate = true
  claims : ∀ later earlier i job, log = later ++ .claimed i job :: earlier →
    Settled i job later ∨ (c.Holds i job ∧ ∀ x ∈ later, x.claim? i = none)
  settled : ∀ later earlier, log = later ++ .closes :: earlier → AllSettled earlier

theorem orderly_start (raw : Settings) (clock : Clock) (ids : Nat → WorkerId) :
    (start raw clock ids).Orderly [] where
  sound := sound_start raw clock ids
  down := by simp
  starts := .nil
  closes := rfl
  late := .nil
  claims := by simp
  settled := by simp

theorem Orderly.begun (h : c.Orderly log) {x : Entry} (member : x ∈ log)
    (close : x.isClose = true) : c.closing.begun = true := by
  have positive := List.countP_pos_iff.mpr ⟨x, member, close⟩
  rw [h.closes] at positive
  cases begun : c.closing.begun with
  | true => rfl
  | false => simp [begun] at positive

theorem Over.not_holds (h : c.Over) : ¬c.Holds i job := by
  rintro ⟨worker, run, found, running, -⟩
  have rest := (h.workers worker (Array.mem_of_getElem? found)).2
  simp [Supervised.AtRest, Poller.kind, running] at rest

theorem split_of_told {x : Entry} {told : Option Entry} {log later earlier : List Entry}
    (eq : told.toList ++ log = later ++ x :: earlier) :
    (told = some x ∧ later = [] ∧ log = earlier) ∨
      ∃ rest, later = told.toList ++ rest ∧ log = rest ++ x :: earlier := by
  cases told with
  | none => exact .inr ⟨later, rfl, eq⟩
  | some y =>
    cases later with
    | nil =>
      cases eq
      exact .inl ⟨rfl, rfl, rfl⟩
    | cons z rest =>
      cases eq
      exact .inr ⟨rest, rfl, rfl⟩

theorem Orderly.moves (h : c.Orderly log) (moves : c.Moves e after) :
    after.Orderly ((after.tells e).toList ++ log) where
  sound := h.sound.moves moves
  down x member cancel := by
    obtain new | old := List.mem_append.mp member
    · exact moves.isCancel x (Option.mem_toList.mp new) cancel
    · exact moves.down (h.down x old cancel)
  starts := by
    refine List.pairwise_append.mpr ⟨by cases after.tells e <;> simp, h.starts, ?_⟩
    intro x new y old cancel
    exact moves.not_isStart (h.down y old cancel) x (Option.mem_toList.mp new)
  closes := by rw [List.countP_append, h.closes, moves.isClose]
  late := by
    refine List.pairwise_append.mpr ⟨by cases after.tells e <;> simp, h.late, ?_⟩
    intro x new y old close
    exact moves.isLate h.sound (h.begun old close) x (Option.mem_toList.mp new)
  claims later earlier i job eq := by
    obtain ⟨told, rfl, -⟩ | ⟨rest, rfl, split⟩ := split_of_told eq
    · exact .inr ⟨moves.claimed told, by simp⟩
    · obtain settled | ⟨holds, quiet⟩ := h.claims rest earlier i job split
      · exact .inl (settled.append _)
      · obtain ⟨x, told, settles⟩ | ⟨silent, holds⟩ := moves.holds h.sound holds
        · rw [Option.mem_def.mp told]
          exact .inl ⟨[], x, rest, rfl, settles, quiet⟩
        · refine .inr ⟨holds, List.forall_mem_append.mpr ⟨fun x new => ?_, quiet⟩⟩
          exact silent x (Option.mem_toList.mp new)
  settled later earlier eq := by
    obtain ⟨told, -, rfl⟩ | ⟨rest, -, split⟩ := split_of_told eq
    · intro later earlier i job eq
      have all : c.closing.seen c.tasks.size = c.tasks.size := by rw [moves.closes told]; rfl
      exact (h.claims later earlier i job eq).resolve_right fun held =>
        (h.sound.over_of_seen all).not_holds held.1
    · exact h.settled rest earlier split

theorem Orderly.run {events : List Event} (h : c.Orderly log) (run : c.run? events = some after) :
    after.Orderly (c.log events ++ log) := by
  induction events generalizing c log with
  | nil =>
    cases run
    exact h
  | cons e rest ih =>
    obtain ⟨next, first, later⟩ := Option.bind_eq_some_iff.mp run
    rw [Crew.log, first, List.append_assoc]
    exact ih (h.moves (moves_of_step first)) later

end Crew
end DelayedJobs
