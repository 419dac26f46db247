import DelayedJobs.Proofs.Scheduler.Poller
import DelayedJobs.Proofs.Scheduler.Supervisor
import DelayedJobs.Simulation.CommandTrial
import DelayedJobs.Simulation.LeaseTrial
import DelayedJobs.Simulation.Supervision
import Mathlib.Logic.Relation

/-!
Trials of single loops in virtual time. What a trial makes of its loop is always a possible step of
it, so that a report shows what the loop does and not what the trial falls back to.
-/

namespace DelayedJobs
namespace Simulation

/-! Supervision: no run starts after shutdown, and pauses keep to their range. -/

namespace Supervision
variable {s : Supervision} {st : State} {time : Nat} {e : Supervisor.Event}

theorem mem_of_earliest? {times : List (Option Nat × Supervisor.Event)}
    (h : earliest? times = some (time, e)) : (some time, e) ∈ times := by
  suffices found : ∀ best, times.foldl _ best = some (time, e) →
      best = some (time, e) ∨ (some time, e) ∈ times from (found none h).resolve_left nofun
  clear h
  induction times with
  | nil => exact fun best h => .inl h
  | cons first rest ih =>
    intro best h
    obtain earlier | later := ih _ h
    · obtain ⟨t, f⟩ := first
      cases t with
      | none => exact .inl earlier
      | some t =>
        cases best with
        | none =>
          cases earlier
          exact .inr List.mem_cons_self
        | some best =>
          dsimp only at earlier
          split at earlier
          · cases earlier
            exact .inr List.mem_cons_self
          · exact .inl earlier
    · exact .inr (List.mem_cons_of_mem _ later)

theorem drawPause_within (k : UInt32) :
    Supervisor.shortestPause k ≤ drawPause k ∧ drawPause k ≤ Supervisor.longestPause k := by
  have order := Supervisor.shortestPause_le k
  have fits := (Supervisor.longestPause k).nanos_le
  simp only [Duration.le_iff, drawPause, Duration.nanos_ofNanos, Duration.maxNanos] at *
  omega

theorem isDown_of_le {t now : Nat} (fires : s.shutdownAt = some t) (passed : t ≤ now) :
    s.isDown now = true := by
  rw [isDown, fires]
  exact decide_eq_true passed

def Turns (s : Supervision) (st st' : State) : Prop :=
  st.now ≤ st'.now ∧ ∃ e, Supervisor.step (s.isDown st'.now) st'.now st.phase e = some st'.phase

theorem possible (next : s.next? st = some (time, e)) :
    let now := max st.now time
    ∃ phase, Supervisor.step (s.isDown now) now st.phase e = some phase := by
  intro now
  have passed : time ≤ now := Nat.le_max_right _ _
  have leads {q : Supervisor.Phase} (may : Supervisor.Leads (s.isDown now) now st.phase q e) :
      Supervisor.step (s.isDown now) now st.phase e = some q :=
    Supervisor.step_eq_some_iff.mpr may
  unfold next? at next
  split at next
  next => cases next
  next gated =>
    have chosen := mem_of_earliest? next
    simp only [List.mem_cons, List.not_mem_nil, or_false, Prod.mk.injEq] at chosen
    obtain ⟨fires, rfl⟩ | ⟨-, rfl⟩ | ⟨-, rfl⟩ := chosen
    · exact ⟨_, leads ⟨.inl gated, isDown_of_le fires.symm passed, rfl⟩⟩
    · exact ⟨_, leads ⟨gated, rfl⟩⟩
    · exact ⟨_, leads ⟨gated, rfl⟩⟩
  next k checking =>
    cases next
    exact ⟨_, leads ⟨k, checking, rfl⟩⟩
  next k running =>
    split at next
    next r length _ =>
      cases next
      cases r with
      | ok => exact ⟨_, leads ⟨⟨k, running⟩, rfl⟩⟩
      | failed | panicked => exact ⟨_, leads ⟨k, running, drawPause_within (k + 1), rfl⟩⟩
    next length _ =>
      obtain ⟨t, -, eq⟩ := Option.map_eq_some_iff.mp next
      cases eq
      exact ⟨_, leads ⟨⟨k, running⟩, rfl⟩⟩
    next => cases next
  next k wakeAt pausing =>
    have chosen := mem_of_earliest? next
    simp only [List.mem_cons, List.not_mem_nil, or_false, Prod.mk.injEq] at chosen
    obtain ⟨fires, rfl⟩ | ⟨due, rfl⟩ := chosen
    · exact ⟨_, leads ⟨.inr ⟨k, wakeAt, pausing⟩, isDown_of_le fires.symm passed, rfl⟩⟩
    · cases due
      exact ⟨_, leads ⟨k, time, pausing, passed, rfl⟩⟩

theorem step_phase : (s.step st time e).phase =
    (Supervisor.step (s.isDown (max st.now time)) (max st.now time) st.phase e).getD .returned ∧
      (s.step st time e).now = max st.now time := by
  unfold step
  dsimp only
  split <;> exact ⟨rfl, rfl⟩

theorem turns_of_next (next : s.next? st = some (time, e)) : s.Turns st (s.step st time e) := by
  obtain ⟨q, moves⟩ := possible next
  obtain ⟨phase, now⟩ : (s.step st time e).phase = _ ∧ (s.step st time e).now = _ := step_phase
  rw [Turns, now, phase, moves]
  exact ⟨Nat.le_max_left _ _, e, moves⟩

structure Regular (s : Supervision) (st : State) : Prop where
  starts : ∀ t ∈ st.starts, t ≤ st.now ∧ s.isDown t = false
  order : st.starts.Pairwise (· ≤ ·)
  pauses : ∀ p ∈ st.pauses,
    (Supervisor.shortestPause p.1).nanos ≤ p.2 ∧ p.2 ≤ (Supervisor.longestPause p.1).nanos

theorem Regular.step (h : s.Regular st) (next : s.next? st = some (time, e)) :
    s.Regular (s.step st time e) := by
  obtain ⟨q, moves⟩ := possible next
  have later : st.now ≤ max st.now time := Nat.le_max_left _ _
  have starts (t : Nat) (member : t ∈ st.starts) : t ≤ max st.now time ∧ s.isDown t = false :=
    ⟨Nat.le_trans (h.starts t member).1 later, (h.starts t member).2⟩
  unfold Supervision.step
  dsimp only
  split
  next running =>
    rw [moves, Option.getD_some] at running
    have up : s.isDown (max st.now time) = false := by
      rw [← Bool.not_eq_true]
      intro down
      rw [down, running] at moves
      cases Supervisor.not_isRunning_of_shutdown moves
    refine ⟨fun t member => ?_, ?_, h.pauses⟩
    · obtain before | last := List.mem_append.mp member
      · exact starts t before
      · cases List.mem_singleton.mp last
        exact ⟨Nat.le_refl _, up⟩
    · refine List.pairwise_append.mpr ⟨h.order, List.pairwise_singleton _ _, ?_⟩
      intro t member last same
      cases List.mem_singleton.mp same
      exact (starts t member).1
  next k _ _ _ _ =>
    refine ⟨starts, h.order, fun p member => ?_⟩
    obtain before | last := List.mem_append.mp member
    · exact h.pauses p before
    · cases List.mem_singleton.mp last
      exact drawPause_within k
  next => exact ⟨starts, h.order, h.pauses⟩

theorem run_turns (s : Supervision) (fuel : Nat) (st : State) (regular : s.Regular st) :
    Relation.ReflTransGen s.Turns st (s.run fuel st) ∧ s.Regular (s.run fuel st) := by
  induction fuel generalizing st with
  | zero => exact ⟨.refl, regular⟩
  | succ fuel ih =>
    rw [run]
    split
    next time e next =>
      obtain ⟨turns, still⟩ := ih _ (regular.step next)
      exact ⟨.head (turns_of_next next) turns, still⟩
    next => exact ⟨.refl, regular⟩

/-- A report is of steps of the supervisor alone: its runs start in order and not after shutdown,
and its pauses are in the range of their failures. -/
theorem report_of_run (s : Supervision) : ∃ st, Relation.ReflTransGen s.Turns {} st ∧
    s.Regular st ∧ s.report = ⟨st.phase = .returned, st.starts, st.pauses⟩ := by
  obtain ⟨turns, regular⟩ := s.run_turns
    (4 * (s.runs.length + s.shutdownAt.getD 0 / 500000000 + 3)) {} ⟨nofun, .nil, nofun⟩
  exact ⟨_, turns, regular, rfl⟩

end Supervision

/-! Prunes: each one follows the pause for the results before it, with its cutoff at the
retention. -/

namespace Pruning
open Cleaner (Pruned nextStreak)
variable {c : Poller.Context} {streak : Nat}

def later (c : Poller.Context) (streak : Nat) : Poller.Context :=
  { c with now := c.now + (Cleaner.pause streak c.settings.pruneInterval).nanos }

theorem entries_cons (up : c.shutdown = false) (r : Pruned) (rest : List Pruned) :
    entries c (.idle streak) (r :: rest) =
      ⟨Cleaner.pause streak c.settings.pruneInterval, (later c streak).instant,
        (later c streak).instant.before c.settings.keepFinished⟩ ::
        if r = .panicked then []
        else entries (later c streak) (.idle (nextStreak streak r)) rest := by
  let pause := Cleaner.pause streak c.settings.pruneInterval
  let cutoff := (later c streak).instant.before c.settings.keepFinished
  have rests : Cleaner.step c (.idle streak) (.rest pause.nanos) =
      some (.resting streak (c.now + pause.nanos)) := by
    simp [Cleaner.step, up, Cleaner.isSpread_nanos, pause]
  have wakes : Cleaner.step (later c streak) (.resting streak (c.now + pause.nanos)) .wake =
      some (.pruning streak cutoff) :=
    if_pos (Nat.le_refl _)
  have prunes : Cleaner.step (later c streak) (.pruning streak cutoff) (.pruned r) =
      some (if r = .panicked then .panicked else .idle (nextStreak streak r)) :=
    Cleaner.step_eq_some_iff.mpr ⟨_, _, rfl, rfl⟩
  have turns : (do
      let resting ← Cleaner.step c (.idle streak) (.rest pause.nanos)
      let pruning ← Cleaner.step (later c streak) resting .wake
      let next ← Cleaner.step (later c streak) pruning (.pruned r)
      return (pruning, next)) = some (.pruning streak cutoff,
        if r = .panicked then .panicked else .idle (nextStreak streak r)) := by
    rw [rests, Option.bind_eq_bind, Option.bind_some, wakes, Option.bind_some, prunes]
    rfl
  simp only [later, pause, cutoff] at turns
  rw [entries]
  simp only [turns]
  split <;> simp [entries, later]

theorem entries_getElem? (up : c.shutdown = false) {results : List Pruned} {i : Nat}
    {x : PruneEntry} (found : (entries c (.idle streak) results)[i]? = some x) :
    x.pause = Cleaner.pause ((results.take i).foldl nextStreak streak) c.settings.pruneInterval ∧
      x.cutoff = x.called.before c.settings.keepFinished := by
  induction results generalizing c streak i with
  | nil => cases found
  | cons r rest ih =>
    rw [entries_cons up] at found
    cases i with
    | zero =>
      cases found
      exact ⟨rfl, rfl⟩
    | succ i =>
      rw [List.getElem?_cons_succ] at found
      split at found
      · cases found
      · exact ih (c := later c streak) up found

theorem length_entries (up : c.shutdown = false) (results : List Pruned) :
    (entries c (.idle streak) results).length =
      min results.length ((results.takeWhile (· ≠ .panicked)).length + 1) := by
  induction results generalizing c streak with
  | nil => rfl
  | cons r rest ih =>
    rw [entries_cons up, List.length_cons]
    split
    next panics => simp [panics]
    next calm =>
      have ran : (r :: rest).takeWhile (· ≠ .panicked) = r :: rest.takeWhile (· ≠ .panicked) :=
        List.takeWhile_cons_of_pos (by simpa using calm)
      rw [ih (c := later c streak) up, ran, List.length_cons, List.length_cons]
      omega

end Pruning

/-! Renewals: each asks for the lease as the clock says, and the ending is that of the
last event. -/

namespace LeaseTrial
variable {t : LeaseTrial} {s : State} {report : LeaseReport}

structure Stands (t : LeaseTrial) (s : State) : Prop where
  entries : ∀ x ∈ s.entries, x.until_ = t.settings.leaseEnd (t.clock.read (Lease.elapsed x.since))
  asks : ∀ since until_, s.phase = .renewing since until_ →
    until_ = t.settings.leaseEnd (t.clock.read (Lease.elapsed since))
  held : s.phase = .ended .held → t.finishAt.isSome = true
  lost : s.phase = .ended .lost → ∃ x, s.entries.getLast? = some x ∧ x.result = some .lost

theorem finishes {f : Nat} (done : t.finishedBy f = true) : t.finishAt.isSome = true := by
  rw [finishedBy] at done
  obtain ⟨g, hg, -⟩ := (Option.any_eq_true _ _).mp done
  exact Option.isSome_of_eq_some hg

theorem phase_wake {wakeAt : Nat} (resting : s.phase = .resting wakeAt) :
    (t.stepAt s wakeAt .wake).phase =
      .renewing wakeAt (t.settings.leaseEnd (t.clock.read (Lease.elapsed wakeAt))) := by
  have moves : Lease.step t.settings t.clock wakeAt s.phase .wake = some _ :=
    Lease.step_eq_some_iff.mpr ⟨wakeAt, resting, Nat.le_refl _, rfl⟩
  rw [stepAt, moves, Option.getD_some]

theorem phase_finish {time : Nat} (going : s.phase.isEnded = false) :
    (t.stepAt s time .finish).phase = .ended .held := by
  have moves : Lease.step t.settings t.clock time s.phase .finish = some _ :=
    Lease.step_eq_some_iff.mpr ⟨going, rfl⟩
  rw [stepAt, moves, Option.getD_some]

theorem phase_answer {since : Nat} {until_ : Instant} (renewing : s.phase = .renewing since until_)
    (time : Nat) (r : Lease.Renewal) :
    (t.stepAt s time (.answer r)).phase = Lease.answered t.settings time r := by
  have moves : Lease.step t.settings t.clock time s.phase (.answer r) = some _ :=
    Lease.step_eq_some_iff.mpr ⟨⟨since, until_, renewing⟩, rfl⟩
  rw [stepAt, moves, Option.getD_some]

theorem Stands.wake (h : t.Stands s) {wakeAt : Nat} (resting : s.phase = .resting wakeAt) :
    t.Stands (t.stepAt s wakeAt .wake) := by
  refine ⟨h.entries, ?_, ?_, ?_⟩ <;> rw [phase_wake resting]
  · rintro _ _ ⟨⟩
    rfl
  · exact nofun
  · exact nofun

theorem Stands.finish (h : t.Stands s) {time f : Nat} (going : s.phase.isEnded = false)
    (done : t.finishedBy time = true) : t.Stands (t.stepAt s f .finish) := by
  refine ⟨h.entries, ?_, fun _ => finishes done, ?_⟩ <;> rw [phase_finish going] <;> intros <;>
    contradiction

theorem Stands.note (h : t.Stands s) {since : Nat} {until_ : Instant}
    (renewing : s.phase = .renewing since until_) (result : Option Lease.Renewal) :
    ∀ x ∈ s.entries ++ [⟨since, until_, result⟩],
      x.until_ = t.settings.leaseEnd (t.clock.read (Lease.elapsed x.since)) := by
  intro x member
  obtain before | last := List.mem_append.mp member
  · exact h.entries x before
  · cases List.mem_singleton.mp last
    exact h.asks since until_ renewing

theorem Stands.abandon (h : t.Stands s) {since time f : Nat} {until_ : Instant}
    (renewing : s.phase = .renewing since until_) (done : t.finishedBy time = true) :
    t.Stands { t.stepAt s f .finish with entries := s.entries ++ [⟨since, until_, none⟩] } := by
  have finish := h.finish (f := f) (by rw [renewing]; rfl) done
  refine ⟨h.note renewing none, finish.asks, finish.held, fun lost => ?_⟩
  have held : (t.stepAt s f .finish).phase = .ended .held := phase_finish (by rw [renewing]; rfl)
  cases held.symm.trans lost

theorem Stands.answer (h : t.Stands s) {since : Nat} {until_ : Instant}
    (renewing : s.phase = .renewing since until_) (time : Nat) (r : Lease.Renewal)
    (renewals : List ScriptedRenewal) (store : MemoryStore) :
    t.Stands { t.stepAt s time (.answer r) with
      renewals
      store
      entries := s.entries ++
        [⟨since, until_, if r = Lease.Renewal.panicked then none else some r⟩] } := by
  refine ⟨h.note renewing _, ?_, ?_, ?_⟩ <;> dsimp only <;> rw [phase_answer renewing]
  · cases r <;> rintro _ _ ⟨⟩
  · cases r <;> rintro ⟨⟩
  · intro lost
    cases r with
    | lost => exact ⟨_, List.getLast?_concat, rfl⟩
    | _ => cases lost

theorem stands_start (t : LeaseTrial) (store : MemoryStore) :
    t.Stands { phase := Lease.start t.settings 0, renewals := t.renewals, store } where
  entries _ member := absurd member List.not_mem_nil
  asks := by simp [Lease.start]
  held := by simp [Lease.start]
  lost := by simp [Lease.start]

theorem run_stands {fuel : Nat} (h : t.Stands s) (run : t.run fuel s = some report) :
    ∃ s, t.Stands s ∧ s.phase = .ended report.ending ∧ s.entries = report.renewals := by
  induction fuel generalizing s with
  | zero => cases run
  | succ fuel ih =>
    rw [LeaseTrial.run] at run
    split at run
    next ending ended =>
      cases run
      exact ⟨s, h, ended, rfl⟩
    next wakeAt resting =>
      split at run
      next done => exact ih (h.finish (by rw [resting]; rfl) done) run
      next => exact ih (h.wake resting) run
    next since until_ renewing =>
      dsimp only at run
      split at run
      next done => exact ih (h.abandon renewing done) run
      next =>
        have stands := h.answer renewing (since + (s.renewals.headD {}).latency)
          (t.answer s (s.renewals.headD {}) until_).1 s.renewals.tail
          (t.answer s (s.renewals.headD {}) until_).2
        split at run
        next ending _ ended _ =>
          cases run
          exact ⟨_, stands, ended, rfl⟩
        next => exact ih stands run

/-- Every renewal in a report asks for the lease until the clock's end; the upkeep was held only for
a job that finishes, and lost only by the last renewal. -/
theorem report_sound {store : MemoryStore} (reported : t.report store = some report) :
    (∀ x ∈ report.renewals,
      x.until_ = t.settings.leaseEnd (t.clock.read (Lease.elapsed x.since))) ∧
    (report.ending = .held → t.finishAt.isSome = true) ∧
    (report.ending = .lost → ∃ x, report.renewals.getLast? = some x ∧ x.result = some .lost) := by
  obtain ⟨s, stands, ended, entries⟩ := run_stands (stands_start t store) reported
  rw [← entries]
  exact ⟨stands.entries, fun held => stands.held (held ▸ ended),
    fun lost => stands.lost (lost ▸ ended)⟩

end LeaseTrial

/-! A database that follows a script: it keeps every statement, and fails as often as it says. -/

namespace ScriptedFailure

def left : List ScriptedFailure → Nat
  | [] => 0
  | f :: rest => f.times + left rest

theorem left_of_take? {text message : String} {failures rest : List ScriptedFailure}
    (taken : take? text failures = some (message, rest)) : left failures = left rest + 1 := by
  induction failures generalizing message rest with
  | nil => cases taken
  | cons f failures ih =>
    rw [take?] at taken
    split at taken
    next hits =>
      cases taken
      have some_left : f.times ≠ 0 := by
        rw [ScriptedFailure.hits, Bool.and_eq_true, bne_iff_ne] at hits
        exact hits.1
      simp only [left]
      omega
    next =>
      obtain ⟨⟨found, later⟩, first, eq⟩ := Option.map_eq_some_iff.mp taken
      cases eq
      have less := ih first
      simp only [left] at less ⊢
      omega

end ScriptedFailure

namespace ScriptedDatabase

def Fails : Statement × Reply → Bool
  | (.install _, .failed _) => true
  | _ => false

theorem serve_sent (statement : Statement) (d : ScriptedDatabase) :
    (serve statement d).2.sent = d.sent.push statement := by
  cases statement with
  | request r => rfl
  | install step =>
    simp only [serve, answer]
    split <;> rfl

theorem serve_left (statement : Statement) (d : ScriptedDatabase) :
    (Fails (statement, (serve statement d).1)).toNat +
      ScriptedFailure.left (serve statement d).2.failures = ScriptedFailure.left d.failures := by
  cases statement with
  | request r => exact Nat.zero_add _
  | install step =>
    simp only [serve, answer]
    split
    next taken =>
      rw [ScriptedFailure.left_of_take? taken, Nat.add_comm]
      rfl
    next => exact Nat.zero_add _

theorem run_mapM_cons (statement : Statement) (rest : List Statement) (d : ScriptedDatabase) :
    ((statement :: rest).mapM serve).run d =
      let after := (rest.mapM serve).run (serve statement d).2
      ((serve statement d).1 :: after.1, after.2) := by
  rw [List.mapM_cons]
  rfl

/-- Of any statements that are served one after the other all are kept, in order, and as many that
create the table fail as the script has failures less. -/
theorem serves (statements : List Statement) (d : ScriptedDatabase) :
    let after := (statements.mapM serve).run d
    after.2.sent.toList = d.sent.toList ++ statements ∧
      (statements.zip after.1).countP Fails + ScriptedFailure.left after.2.failures =
        ScriptedFailure.left d.failures := by
  induction statements generalizing d with
  | nil => exact ⟨(List.append_nil _).symm, Nat.zero_add _⟩
  | cons statement rest ih =>
    have sent := serve_sent statement d
    have less := serve_left statement d
    obtain ⟨others, fewer⟩ := ih (serve statement d).2
    rw [run_mapM_cons]
    dsimp only
    constructor
    · rw [sent, Array.toList_push, List.append_assoc] at others
      exact others
    · rw [List.zip_cons_cons, List.countP_cons, ← less, ← fewer]
      cases Fails (statement, (serve statement d).1) <;> simp [Nat.add_comm, Nat.add_assoc]

end ScriptedDatabase
end Simulation
end DelayedJobs
