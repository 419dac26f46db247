import DelayedJobs.Proofs.Scheduler.Poller
import DelayedJobs.Proofs.Timed.Shutdown
import DelayedJobs.Scheduler.Crew

/-!
A worker in time. Claims, handlers and last calls take as long as they like and come back as they
like, as long as the store does not panic; shutdown fires at a given instant or never. What has
happened is kept in a log, and each entry of the log says when the next one comes.
-/

namespace DelayedJobs
namespace Poller
open Closable (Punctual after shut down_after log_after)

inductive Mark where
  | started
  | claiming
  /-- A claim has found nothing or failed. -/
  | idle
  | took (job : Job)
  | processed
  | stopped

def marks : Event → Phase → List Mark
  | .go, .stopped | .cut, _ => [.stopped]
  | .go, _ => [.claiming]
  | .claimed (.job job), _ => [.took job]
  | .claimed _, .stopped => [.idle, .stopped]
  | .claimed _, _ => [.idle]
  | .conclude, .checking | .finalized _, _ => [.processed]
  | _, _ => []

def storePanics : Event → Bool
  | .claimed .panicked | .finalized .panicked => true
  | _ => false

/-- Rests end when they are over or shutdown fires, and a look whether to go on takes no time. -/
def closable (s : Settings) (clock : Clock) : Closable Phase Event Mark where
  step down now p e :=
    if storePanics e then none
    else (step ⟨s, clock, down, now⟩ p e).map fun q => (q, marks e q)
  deadlines down
    | .checking => [0]
    | .resting wakeAt => [if down then 0 else wakeAt]
    | _ => []

abbrev Watch := Closable.Watch Phase Mark

abbrev timed (s : Settings) (clock : Clock) (shutdownAt : Option Nat) :
    Timed Watch (Closable.Turn Event) :=
  (closable s clock).timed shutdownAt

def start (shutdownAt : Option Nat) (now : Nat) : Timed.Moment Watch :=
  Closable.start shutdownAt .checking .started now

inductive Next (poll : Nat) (shutdownAt : Option Nat) : Nat × Mark → Nat × Mark → Prop
  | claim {t : Nat} {mark : Mark} (ready : mark = .started ∨ mark = .processed)
      (early : ∀ f ∈ shutdownAt, t ≤ f) :
    Next poll shutdownAt (t, mark) (t, .claiming)
  /-- After a claim without a job the next one waits for the whole interval. -/
  | again {t : Nat} (early : ∀ f ∈ shutdownAt, t + poll ≤ f) :
    Next poll shutdownAt (t, .idle) (t + poll, .claiming)
  | idle {t t' : Nat} (h : t ≤ t') : Next poll shutdownAt (t, .claiming) (t', .idle)
  | took {t t' : Nat} {job : Job} (h : t ≤ t') :
    Next poll shutdownAt (t, .claiming) (t', .took job)
  | processed {t t' : Nat} {job : Job} (h : t ≤ t') :
    Next poll shutdownAt (t, .took job) (t', .processed)
  | stop {t f : Nat} {mark : Mark} (ready : mark = .started ∨ mark = .processed)
      (h : f ∈ shutdownAt) (fired : f ≤ t) :
    Next poll shutdownAt (t, mark) (t, .stopped)
  | cut {t f : Nat} (h : f ∈ shutdownAt) (soon : f ≤ t + poll) :
    Next poll shutdownAt (t, .idle) (max t f, .stopped)

def Mark.isTook : Mark → Bool
  | took _ => true
  | _ => false

def Mark.isProcessed : Mark → Bool
  | processed => true
  | _ => false

def Phase.jobs : Phase → Nat
  | running _ | finalizing _ _ => 1
  | _ => 0

section Run
variable {s : Settings} {clock : Clock} {t₀ t poll : Nat} {shutdownAt : Option Nat}
variable {m : Timed.Moment Watch}

def Stands (poll : Nat) (shutdownAt : Option Nat) (now : Nat) (down : Bool) (last : Nat × Mark) :
    Phase → Prop
  | .checking => (last.2 = .started ∨ last.2 = .processed) ∧ last.1 = now ∨
      last.2 = .idle ∧ now = last.1 + poll ∧ (down = true → now ∈ shutdownAt)
  | .claiming _ _ => last.2 = .claiming
  | .resting wakeAt => last.2 = .idle ∧ wakeAt = last.1 + poll ∧ now ≤ wakeAt ∧
      (down = true → now ∈ shutdownAt)
  | .running _ | .finalizing _ _ => ∃ job, last.2 = .took job
  | .stopped => last = (now, .stopped) ∧ down = true
  | .panicked => False

structure Steady (poll t₀ : Nat) (shutdownAt : Option Nat) (m : Timed.Moment Watch) : Prop where
  last : ∃ last, Logged (Next poll shutdownAt) (t₀, .started) m.state.log last ∧
    last.1 ≤ m.now ∧ Stands poll shutdownAt m.now m.state.down last m.state.phase
  single : m.state.log.countP (·.2.isTook) =
    m.state.log.countP (·.2.isProcessed) + m.state.phase.jobs

theorem Steady.start : Steady poll t₀ shutdownAt (start shutdownAt t₀) where
  last := ⟨(t₀, .started), .singleton _, le_rfl, .inl ⟨.inl rfl, rfl⟩⟩
  single := rfl

section Deadlines
variable (waits : (timed s clock shutdownAt).MayWait m t)
include waits

theorem eq_of_checking (phase : m.state.phase = .checking) : t = m.now :=
  Closable.eq_now_of_deadline waits (by rw [phase]; exact .head _) m.now.zero_le

theorem le_of_resting {wakeAt : Nat} (phase : m.state.phase = .resting wakeAt) :
    t ≤ max (if m.state.down then 0 else wakeAt) m.now :=
  Closable.le_of_deadline waits (by rw [phase]; exact .head _)

theorem eq_of_resting {wakeAt : Nat} (phase : m.state.phase = .resting wakeAt)
    (down : m.state.down = true) : t = m.now :=
  Closable.eq_now_of_deadline waits (by rw [phase, down]; exact .head _) m.now.zero_le

end Deadlines

theorem Steady.shutdown (h : Steady poll t₀ shutdownAt m)
    (waits : (timed s clock shutdownAt).MayWait m t) (up : m.state.down = false)
    (fires : t ∈ shutdownAt) : Steady poll t₀ shutdownAt (shut m t) := by
  obtain ⟨last, logged, past, stands⟩ := h.last
  refine ⟨⟨last, logged, past.trans waits.1, ?_⟩, h.single⟩
  change Stands poll shutdownAt t true last m.state.phase
  cases phase : m.state.phase with
  | checking =>
    rw [phase] at stands
    obtain rfl := eq_of_checking waits phase
    obtain ready | ⟨idle, just, -⟩ := stands
    · exact .inl ready
    · exact .inr ⟨idle, just, fun _ => fires⟩
  | resting wakeAt =>
    rw [phase, up] at stands
    obtain ⟨idle, wake, before, -⟩ := stands
    have soon := le_of_resting waits phase
    rw [up, if_neg Bool.false_ne_true, max_eq_left before] at soon
    exact ⟨idle, wake, soon, fun _ => fires⟩
  | claiming | running | finalizing =>
    rw [phase] at stands
    exact stands
  | stopped =>
    rw [phase, up] at stands
    exact absurd stands.2 Bool.false_ne_true
  | panicked =>
    rw [phase] at stands
    exact stands

theorem single_append {mark : Mark} {jobs jobs' : Nat} {log : List (Nat × Mark)}
    (h : log.countP (·.2.isTook) = log.countP (·.2.isProcessed) + jobs)
    (change : jobs + (if mark.isTook then 1 else 0) = (if mark.isProcessed then 1 else 0) + jobs') :
    (log ++ [(t, mark)]).countP (·.2.isTook) =
      (log ++ [(t, mark)]).countP (·.2.isProcessed) + jobs' := by
  rw [List.countP_append, List.countP_append, List.countP_singleton, List.countP_singleton]
  dsimp only
  omega

section Loop
variable {q : Phase} (h : Steady poll t₀ shutdownAt m) (punctual : Punctual shutdownAt m)
variable (waits : (timed s clock shutdownAt).MayWait m t)
include h waits

theorem Steady.quiet (jobs : q.jobs = m.state.phase.jobs)
    (stands : ∀ last, last.1 ≤ m.now →
      Stands poll shutdownAt m.now m.state.down last m.state.phase →
      Stands poll shutdownAt t m.state.down last q) :
    Steady poll t₀ shutdownAt (after m t q []) := by
  obtain ⟨last, logged, past, before⟩ := h.last
  rw [after, List.map_nil, List.append_nil]
  exact ⟨⟨last, logged, past.trans waits.1, stands last past before⟩, jobs ▸ h.single⟩

include punctual in
theorem Steady.claims {now until_ : Instant} (phase : m.state.phase = .checking)
    (up : m.state.down = false) :
    Steady poll t₀ shutdownAt (after m t (.claiming now until_) [.claiming]) := by
  obtain ⟨⟨t', mark⟩, logged, past, stands⟩ := h.last
  have single := h.single
  rw [phase] at stands single
  have just := eq_of_checking waits phase
  have early := punctual.inTime waits up
  have next : Next poll shutdownAt (t', mark) (t, .claiming) := by
    obtain ⟨ready, since⟩ | ⟨idle, woken, -⟩ := stands
    · cases since.trans just.symm
      exact .claim ready early
    · cases just.trans woken
      cases idle
      exact .again early
  exact ⟨⟨_, logged.append next, le_rfl, rfl⟩, single_append single rfl⟩

include punctual in
theorem Steady.stops (phase : m.state.phase = .checking) (down : m.state.down = true) :
    Steady poll t₀ shutdownAt (after m t .stopped [.stopped]) := by
  obtain ⟨⟨t', mark⟩, logged, past, stands⟩ := h.last
  have single := h.single
  rw [phase] at stands single
  obtain rfl := eq_of_checking waits phase
  have next : Next poll shutdownAt (t', mark) (m.now, .stopped) := by
    obtain ⟨ready, rfl⟩ | ⟨idle, woken, fired⟩ := stands
    · obtain ⟨f, hf, fired⟩ := punctual.fired down
      exact .stop ready hf fired
    · cases idle
      have cut : Next poll shutdownAt (t', .idle) (max t' m.now, .stopped) :=
        .cut (fired down) woken.le
      rwa [max_eq_right past] at cut
  exact ⟨⟨_, logged.append next, le_rfl, rfl, down⟩, single_append single rfl⟩

theorem Steady.took {now until_ : Instant} (phase : m.state.phase = .claiming now until_)
    {job : Job} {lease : Lease.Phase} :
    Steady poll t₀ shutdownAt (after m t (.running { job, lease }) [.took job]) := by
  obtain ⟨⟨t', mark⟩, logged, past, stands⟩ := h.last
  have single := h.single
  rw [phase] at stands single
  cases stands
  exact ⟨⟨_, logged.append (.took (past.trans waits.1)), le_rfl, job, rfl⟩,
    single_append single rfl⟩

theorem Steady.rests {now until_ : Instant} (phase : m.state.phase = .claiming now until_)
    (up : m.state.down = false) :
    Steady poll t₀ shutdownAt (after m t (.resting (t + poll)) [.idle]) := by
  obtain ⟨⟨t', mark⟩, logged, past, stands⟩ := h.last
  have single := h.single
  rw [phase] at stands single
  cases stands
  have idle := logged.append (.idle (past.trans waits.1))
  refine ⟨⟨_, idle, le_rfl, rfl, rfl, Nat.le_add_right _ _, ?_⟩, single_append single rfl⟩
  rw [down_after, up]
  exact nofun

include punctual in
theorem Steady.leaves {now until_ : Instant} (phase : m.state.phase = .claiming now until_)
    (down : m.state.down = true) :
    Steady poll t₀ shutdownAt (after m t .stopped [.idle, .stopped]) := by
  obtain ⟨⟨t', mark⟩, logged, past, stands⟩ := h.last
  have single := h.single
  rw [phase] at stands single
  cases stands
  have idle := logged.append (.idle (past.trans waits.1))
  obtain ⟨f, hf, fired⟩ := punctual.fired down
  have before : f ≤ t := fired.trans waits.1
  have cut : Next poll shutdownAt (t, .idle) (max t f, .stopped) :=
    .cut hf (before.trans (Nat.le_add_right _ _))
  rw [max_eq_left before] at cut
  have stopped := idle.append cut
  have idled : (m.state.log ++ [(t, Mark.idle)]).countP (·.2.isTook) =
      (m.state.log ++ [(t, Mark.idle)]).countP (·.2.isProcessed) + 0 := single_append single rfl
  have balanced : (m.state.log ++ [(t, Mark.idle)] ++ [(t, Mark.stopped)]).countP (·.2.isTook) =
      (m.state.log ++ [(t, Mark.idle)] ++ [(t, Mark.stopped)]).countP (·.2.isProcessed) + 0 :=
    single_append idled rfl
  rw [List.append_assoc] at stopped balanced
  exact ⟨⟨_, stopped, le_rfl, rfl, down⟩, balanced⟩

theorem Steady.wakes {wakeAt : Nat} (phase : m.state.phase = .resting wakeAt) (due : wakeAt ≤ t) :
    Steady poll t₀ shutdownAt (after m t .checking []) := by
  have soon := le_of_resting waits phase
  have later := waits.1
  refine h.quiet waits (by rw [phase]; rfl) fun last past stands => ?_
  rw [phase] at stands
  obtain ⟨idle, rfl, before, fired⟩ := stands
  refine .inr ⟨idle, by split at soon <;> omega, fun down => ?_⟩
  exact eq_of_resting waits phase down ▸ fired down

theorem Steady.cut {wakeAt : Nat} (phase : m.state.phase = .resting wakeAt)
    (down : m.state.down = true) :
    Steady poll t₀ shutdownAt (after m t .stopped [.stopped]) := by
  obtain ⟨⟨t', mark⟩, logged, past, stands⟩ := h.last
  have single := h.single
  obtain rfl := eq_of_resting waits phase down
  rw [phase] at stands single
  obtain ⟨idle, rfl, before, fired⟩ := stands
  cases idle
  have cut : Next poll shutdownAt (t', .idle) (max t' m.now, .stopped) := .cut (fired down) before
  rw [max_eq_right past] at cut
  exact ⟨⟨_, logged.append cut, le_rfl, rfl, down⟩, single_append single rfl⟩

theorem Steady.release (busy : m.state.phase.jobs = 1)
    (stands : ∀ last, Stands poll shutdownAt m.now m.state.down last m.state.phase →
      ∃ job, last.2 = .took job) :
    Steady poll t₀ shutdownAt (after m t .checking [.processed]) := by
  obtain ⟨⟨t', mark⟩, logged, past, stands'⟩ := h.last
  have single := h.single
  obtain ⟨job, took⟩ := stands _ stands'
  cases took
  rw [busy] at single
  exact ⟨⟨_, logged.append (.processed (past.trans waits.1)), le_rfl, .inl ⟨.inr rfl, rfl⟩⟩,
    single_append single rfl⟩

theorem Steady.process {run : Run} (phase : m.state.phase = .running run)
    (same : q.jobs = 1)
    (took : ∀ last job, last.2 = Mark.took job → Stands poll shutdownAt t m.state.down last q) :
    Steady poll t₀ shutdownAt (after m t q []) := by
  refine h.quiet waits (by rw [phase, same]; rfl) fun last _ stands => ?_
  rw [phase] at stands
  obtain ⟨job, last⟩ := stands
  exact took _ job last

end Loop

theorem Steady.step (h : Steady s.pollInterval.nanos t₀ shutdownAt m)
    (punctual : Punctual shutdownAt m) (waits : (timed s clock shutdownAt).MayWait m t) {e : Event}
    {q : Phase} {marks : List Mark}
    (stepped : (closable s clock).step m.state.down t m.state.phase e = some (q, marks)) :
    Steady s.pollInterval.nanos t₀ shutdownAt (after m t q marks) := by
  obtain ⟨calm, moved⟩ := Option.ite_none_left_eq_some.mp stepped
  obtain ⟨q, leads, eq⟩ := Option.map_eq_some_iff.mp moved
  cases eq
  rw [step_eq_some_iff] at leads
  cases e with
  | go =>
    obtain ⟨phase, rfl⟩ := leads
    cases down : m.state.down with
    | true => exact h.stops punctual waits phase down
    | false => exact h.claims punctual waits phase down
  | claimed r =>
    obtain ⟨⟨now, until_, phase⟩, rfl⟩ := leads
    cases r with
    | panicked => exact absurd rfl calm
    | job job => exact h.took waits phase
    | nothing | failed =>
      cases down : m.state.down with
      | true => exact h.leaves punctual waits phase down
      | false => exact h.rests waits phase down
  | wake =>
    obtain ⟨wakeAt, phase, due, rfl⟩ := leads
    exact h.wakes waits phase due
  | cut =>
    obtain ⟨⟨wakeAt, phase⟩, down, rfl⟩ := leads
    exact h.cut waits phase down
  | handlerEnded r =>
    obtain ⟨run, phase, -, rfl⟩ := leads
    exact h.process waits phase rfl fun _ job took => ⟨job, took⟩
  | finish =>
    obtain ⟨run, phase, -, rfl⟩ := leads
    exact h.process waits phase rfl fun _ job took => ⟨job, took⟩
  | lease e =>
    obtain ⟨run, phase, -, lease, -, rfl⟩ := leads
    exact h.process waits phase rfl fun _ job took => ⟨job, took⟩
  | conclude =>
    obtain ⟨run, phase, -, rfl⟩ := leads
    split
    next lost => exact h.release waits (by rw [phase]; rfl) (by rw [phase]; exact fun _ => id)
    next held => exact h.process waits phase rfl fun _ job took => ⟨job, took⟩
  | finalized r =>
    obtain ⟨⟨job, call, phase⟩, rfl⟩ := leads
    rw [if_neg (by rintro rfl; exact calm rfl)]
    exact h.release waits (by rw [phase]; rfl) (by rw [phase]; exact fun _ => id)

theorem turn_isSome {e : Event} {q : Phase} (waits : (timed s clock shutdownAt).MayWait m t)
    (calm : storePanics e = false)
    (leads : Leads ⟨s, clock, m.state.down, t⟩ m.state.phase q e) :
    ((timed s clock shutdownAt).tick? m t (.loop e)).isSome = true := by
  refine Closable.isSome_loop waits ?_
  simp only [closable]
  rw [calm, if_neg Bool.false_ne_true, step_eq_some_iff.mpr leads]
  rfl

theorem process_isSome {run : Run} (phase : m.state.phase = .running run) :
    ∃ t turn, ((timed s clock shutdownAt).tick? m t turn).isSome = true := by
  have waits := Timed.mayWait_now (timed s clock shutdownAt) m
  cases result : run.result with
  | none =>
    exact ⟨_, _, turn_isSome (e := .handlerEnded .ok) waits rfl ⟨run, phase, result, rfl⟩⟩
  | some r =>
    cases finished : run.finished with
    | false =>
      exact ⟨_, _, turn_isSome (e := .finish) waits rfl
        ⟨run, phase, ⟨result ▸ rfl, finished⟩, rfl⟩⟩
    | true =>
      cases ended : run.lease.isEnded with
      | true =>
        exact ⟨_, _, turn_isSome (e := .conclude) waits rfl ⟨run, phase, ⟨finished, ended⟩, rfl⟩⟩
      | false =>
        exact ⟨_, _, turn_isSome (e := .lease .finish) waits rfl ⟨run, phase, fun _ => finished,
          .ended .held, Lease.step_eq_some_iff.mpr ⟨ended, rfl⟩, rfl⟩⟩

theorem rest_isSome (punctual : Punctual shutdownAt m) {wakeAt : Nat}
    (phase : m.state.phase = .resting wakeAt) (ahead : m.now ≤ wakeAt) :
    ∃ t turn, ((timed s clock shutdownAt).tick? m t turn).isSome = true := by
  cases down : m.state.down with
  | true =>
    exact ⟨_, _, turn_isSome (e := .cut) (Timed.mayWait_now _ m) rfl ⟨⟨wakeAt, phase⟩, down, rfl⟩⟩
  | false =>
    have only : (closable s clock).deadlines false m.state.phase = [wakeAt] := by
      rw [phase]
      rfl
    obtain ⟨t, waits, rfl | fires⟩ := Closable.reaches_deadline punctual down only ahead
    · exact ⟨t, _, turn_isSome (e := .wake) waits rfl ⟨t, phase, le_rfl, rfl⟩⟩
    · exact ⟨t, _, Closable.isSome_shutdown waits down fires le_rfl⟩

theorem Steady.goesOn_iff (h : Steady poll t₀ shutdownAt m) (punctual : Punctual shutdownAt m) :
    m.state.phase ≠ .stopped ↔
      ∃ t turn, ((timed s clock shutdownAt).tick? m t turn).isSome = true := by
  have waits := Timed.mayWait_now (timed s clock shutdownAt) m
  obtain ⟨last, -, -, stands⟩ := h.last
  cases phase : m.state.phase with
  | checking => exact iff_of_true nofun ⟨_, _, turn_isSome (e := .go) waits rfl ⟨phase, rfl⟩⟩
  | claiming now until_ =>
    exact iff_of_true nofun
      ⟨_, _, turn_isSome (e := .claimed .nothing) waits rfl ⟨⟨now, until_, phase⟩, rfl⟩⟩
  | running run => exact iff_of_true nofun (process_isSome phase)
  | finalizing job call =>
    exact iff_of_true nofun
      ⟨_, _, turn_isSome (e := .finalized .done) waits rfl ⟨⟨job, call, phase⟩, rfl⟩⟩
  | resting wakeAt =>
    rw [phase] at stands
    obtain ⟨-, -, ahead, -⟩ := stands
    exact iff_of_true nofun (rest_isSome punctual phase ahead)
  | panicked =>
    rw [phase] at stands
    exact stands.elim
  | stopped =>
    refine iff_of_false (fun h => h rfl) ?_
    rintro ⟨t, turn, able⟩
    rw [phase] at stands
    obtain ⟨m', tick⟩ := Option.isSome_iff_exists.mp able
    cases (Closable.follows_of_tick tick).2 with
    | shutdown up => exact Bool.false_ne_true (up.symm.trans stands.2)
    | @loop e q marks step =>
      rw [phase] at step
      cases e <;> simp [closable, Poller.step] at step

theorem ne_of_ready {mark : Mark} (ready : mark = .started ∨ mark = .processed) :
    mark ≠ .idle ∧ mark ≠ .claiming ∧ (∀ job, mark ≠ .took job) ∧ mark ≠ .stopped := by
  obtain rfl | rfl := ready <;> exact ⟨nofun, nofun, fun _ => nofun, nofun⟩

theorem Stands.now_eq {now : Nat} {down : Bool} {last : Nat × Mark} {p : Phase}
    (h : Stands poll shutdownAt now down last p)
    (ready : last.2 = .started ∨ last.2 = .processed) : now = last.1 := by
  obtain ⟨notIdle, notClaiming, notTook, notStopped⟩ := ne_of_ready ready
  cases p with
  | checking =>
    obtain ⟨-, same⟩ | ⟨idle, -⟩ := h
    · exact same.symm
    · exact absurd idle notIdle
  | claiming => exact absurd h notClaiming
  | resting => exact absurd h.1 notIdle
  | running | finalizing =>
    obtain ⟨job, took⟩ := h
    exact absurd took (notTook job)
  | stopped => exact absurd (congrArg Prod.snd h.1) notStopped
  | panicked => exact h.elim

theorem Stands.now_le {last : Nat × Mark}
    (h : Stands poll shutdownAt m.now m.state.down last m.state.phase)
    (punctual : Punctual shutdownAt m) (idle : last.2 = .idle) :
    m.now ≤ last.1 + poll ∧ ∀ f ∈ shutdownAt, m.now ≤ max last.1 f := by
  have limit (fired : m.state.down = true → m.now ∈ shutdownAt) :
      ∀ f ∈ shutdownAt, m.now ≤ max last.1 f := by
    intro f hf
    cases down : m.state.down with
    | true => exact (Option.mem_unique (fired down) hf).le.trans (Nat.le_max_right _ _)
    | false => exact (punctual.early down f hf).trans (Nat.le_max_right _ _)
  cases phase : m.state.phase with
  | checking =>
    rw [phase] at h
    obtain ⟨ready, -⟩ | ⟨-, woken, fired⟩ := h
    · exact absurd idle (ne_of_ready ready).1
    · exact ⟨woken.le, limit fired⟩
  | resting =>
    rw [phase] at h
    obtain ⟨-, rfl, before, fired⟩ := h
    exact ⟨before, limit fired⟩
  | claiming =>
    rw [phase] at h
    exact absurd (idle.symm.trans h) nofun
  | running | finalizing =>
    rw [phase] at h
    obtain ⟨job, took⟩ := h
    exact absurd (idle.symm.trans took) nofun
  | stopped =>
    rw [phase] at h
    rw [h.1] at idle
    cases idle
  | panicked =>
    rw [phase] at h
    exact h.elim

structure Cadence (s : Settings) (clock : Clock) (t₀ : Nat) (shutdownAt : Option Nat)
    (m : Timed.Moment Watch) : Prop where
  starts : m.state.log.head? = some (t₀, .started)
  /-- Claims follow each other at once after a job and at the interval otherwise, and none begins
  after shutdown. -/
  follows : m.state.log.IsChain (Next s.pollInterval.nanos shutdownAt)
  /-- Without a claim or a job under way no time passes beyond the next claim or shutdown. -/
  inTime : ∀ t mark, m.state.log.getLast? = some (t, mark) →
    (mark = .started ∨ mark = .processed → m.now = t) ∧
    (mark = .idle → m.now ≤ t + s.pollInterval.nanos ∧ ∀ f ∈ shutdownAt, m.now ≤ max t f)
  single : m.state.log.countP (·.2.isTook) ≤ m.state.log.countP (·.2.isProcessed) + 1
  ends : ∀ r, kind.ending? m.state.phase = some r → r = .ok ∧
    m.state.log.getLast? = some (m.now, .stopped) ∧ ∃ f ∈ shutdownAt, f ≤ m.now
  goesOn : kind.ending? m.state.phase = none ↔
    ∃ t turn, ((timed s clock shutdownAt).tick? m t turn).isSome = true

theorem Phase.jobs_le (p : Phase) : p.jobs ≤ 1 := by
  cases p with
  | running | finalizing => exact le_rfl
  | _ => exact Nat.zero_le 1

theorem Steady.cadence (h : Steady s.pollInterval.nanos t₀ shutdownAt m)
    (punctual : Punctual shutdownAt m) : Cadence s clock t₀ shutdownAt m := by
  obtain ⟨last, logged, past, stands⟩ := h.last
  refine ⟨logged.head, logged.chain, fun t mark hlast => ?_, ?_, fun r ended => ?_, ?_⟩
  · cases Option.some.inj (logged.last.symm.trans hlast)
    exact ⟨stands.now_eq, stands.now_le punctual⟩
  · have jobs := m.state.phase.jobs_le
    have single := h.single
    omega
  · cases phase : m.state.phase with
    | stopped =>
      rw [phase] at ended stands
      cases ended
      exact ⟨rfl, stands.1 ▸ logged.last, punctual.fired stands.2⟩
    | panicked =>
      rw [phase] at stands
      exact stands.elim
    | _ =>
      rw [phase] at ended
      cases ended
  · rw [← h.goesOn_iff punctual]
    cases phase : m.state.phase with
    | stopped => exact iff_of_false nofun fun h => h rfl
    | panicked =>
      rw [phase] at stands
      exact stands.elim
    | _ => exact iff_of_true rfl nofun

/-- Whatever claims, handlers and last calls come to and however long they take, a worker keeps to
its cadence until shutdown, and nothing else ends it. -/
theorem polling_cadence (s : Settings) (clock : Clock) (t₀ : Nat) (shutdownAt : Option Nat)
    {turns : List (Nat × Closable.Turn Event)} (run : (timed s clock shutdownAt).run?
      (start shutdownAt t₀) turns = some m) : Cadence s clock t₀ shutdownAt m := by
  obtain ⟨steady, punctual⟩ := Closable.run?_induction
    (P := Steady s.pollInterval.nanos t₀ shutdownAt) (fun _ _ h => h.shutdown)
    (fun _ _ _ _ _ h punctual waits => h.step punctual waits) Steady.start (.start _ _ _) run
  exact steady.cadence punctual

def untilShutdown : List (Nat × Closable.Turn Event) :=
  [(0, .loop .go), (1000000000, .loop (.claimed .nothing)), (16000000000, .loop .wake),
    (16000000000, .loop .go), (17000000000, .loop (.claimed (.job default))),
    (19000000000, .loop (.handlerEnded .panicked)), (19000000000, .loop .finish),
    (19000000000, .loop (.lease .finish)), (19000000000, .loop .conclude),
    (20000000000, .loop (.finalized .failed)), (20000000000, .loop .go),
    (21000000000, .loop (.claimed .failed)), (30000000000, .shutdown), (30000000000, .loop .cut)]

theorem untilShutdown_cadence :
    let sys := timed {} ⟨.epoch⟩ (some 30000000000)
    ∃ m, sys.run? (start (some 30000000000) 0) untilShutdown = some m ∧
      kind.ending? m.state.phase = some .ok ∧
      m.state.log.map (·.1 / 1000000000) = [0, 0, 1, 16, 17, 20, 20, 21, 30] ∧
      Cadence {} ⟨.epoch⟩ 0 (some 30000000000) m := by
  intro sys
  have ended : (sys.run? (start (some 30000000000) 0) untilShutdown).map (fun m =>
      (kind.ending? m.state.phase, m.state.log.map (·.1 / 1000000000))) =
      some (some .ok, [0, 0, 1, 16, 17, 20, 20, 21, 30]) := by
    decide +kernel
  obtain ⟨m, run, shape⟩ := Option.map_eq_some_iff.mp ended
  rw [Prod.mk.injEq] at shape
  exact ⟨m, run, shape.1, shape.2, polling_cadence {} ⟨.epoch⟩ 0 (some 30000000000) run⟩

end Run

end Poller
end DelayedJobs
