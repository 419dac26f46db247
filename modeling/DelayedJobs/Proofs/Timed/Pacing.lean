import DelayedJobs.Proofs.Scheduler.Supervisor
import DelayedJobs.Proofs.Settings.Safety
import DelayedJobs.Proofs.Time.Saturation
import DelayedJobs.Proofs.Timed.Shutdown

/-!
The cleaner in time. Prunes take as long as they like and come back as they like, short of a panic;
the clock may be set at any time. The pause before a prune depends on how many of the last results,
back to the first of another kind, were full batches.
-/

namespace DelayedJobs
namespace Cleaner
open Closable (Punctual after shut down_after log_after)

inductive Mark where
  | started
  /-- The cleaner rests, for as long as is drawn from the spread around `plain`. -/
  | rest (plain : Duration)
  | began (cutoff : Instant)
  | returned (r : Pruned)
  | stopped
deriving DecidableEq

def marks (pruneInterval : Duration) : Phase → Event → Phase → List Mark
  | .idle streak, .rest _, .stopped => [.rest (pause streak pruneInterval), .stopped]
  | .idle streak, .rest _, _ => [.rest (pause streak pruneInterval)]
  | _, .wake, .pruning _ cutoff => [.began cutoff]
  | _, .pruned r, _ => [.returned r]
  | _, .cut, _ => [.stopped]
  | _, _, _ => []

/-- Rests end when they are over or shutdown fires, and between a prune and a rest no
time passes. -/
def closable (s : Settings) (clock : Nat → Clock) : Closable Phase Event Mark where
  step down now p e :=
    if e = .pruned .panicked then none
    else (step ⟨s, clock now, down, now⟩ p e).map fun q => (q, marks s.pruneInterval p e q)
  deadlines down
    | .idle _ => [0]
    | .resting _ wakeAt => [if down then 0 else wakeAt]
    | _ => []

abbrev Watch := Closable.Watch Phase Mark

abbrev timed (s : Settings) (clock : Nat → Clock) (shutdownAt : Option Nat) :
    Timed Watch (Closable.Turn Event) :=
  (closable s clock).timed shutdownAt

def start (shutdownAt : Option Nat) (now : Nat) : Timed.Moment Watch :=
  Closable.start shutdownAt (.idle 0) .started now

def reading (clock : Nat → Clock) (t : Nat) : Instant := (clock t).read (Lease.elapsed t)

inductive Next (s : Settings) (clock : Nat → Clock) (shutdownAt : Option Nat) :
    Nat × Mark → Nat × Mark → Prop
  | rest {t : Nat} {plain : Duration} {mark : Mark}
      (ready : mark = .started ∨ ∃ r, mark = .returned r) :
    Next s clock shutdownAt (t, mark) (t, .rest plain)
  /-- When a rest is over a prune begins, of what was finished before the retention. -/
  | begin_ {t drawn : Nat} {plain : Duration} {cutoff : Instant}
      (spread : isSpread plain drawn = true) (early : ∀ f ∈ shutdownAt, t + drawn ≤ f)
      (retention : cutoff.nanos = max ((reading clock (t + drawn)).nanos - s.keepFinished.nanos)
        Instant.minNanos) :
    Next s clock shutdownAt (t, .rest plain) (t + drawn, .began cutoff)
  | returned {t t' : Nat} {cutoff : Instant} {r : Pruned} (h : t ≤ t') :
    Next s clock shutdownAt (t, .began cutoff) (t', .returned r)
  | stop {t f drawn : Nat} {plain : Duration} (h : f ∈ shutdownAt)
      (spread : isSpread plain drawn = true) (soon : f ≤ t + drawn) :
    Next s clock shutdownAt (t, .rest plain) (max t f, .stopped)

def results (log : List (Nat × Mark)) : List Pruned :=
  log.filterMap fun
    | (_, .returned r) => some r
    | _ => none

def fullBatches (results : List Pruned) : Nat := (results.reverse.takeWhile (· == .more)).length

theorem fullBatches_append (rs : List Pruned) (r : Pruned) :
    fullBatches (rs ++ [r]) = if r = .more then fullBatches rs + 1 else 0 := by
  simp only [fullBatches, List.reverse_append, List.reverse_singleton, List.singleton_append,
    List.takeWhile_cons, beq_iff_eq]
  split <;> rfl

/-- The counter of the loop stays at the greatest word, which is long past the busiest streak. -/
theorem pause_min (n : Nat) (pruneInterval : Duration) :
    pause (min n (Word.count32 - 1)) pruneInterval = pause n pruneInterval := by
  simp only [pause, mostBusy, Word.count32]
  exact if_congr (by omega) rfl rfl

theorem nextStreak_min (rs : List Pruned) (r : Pruned) :
    nextStreak (min (fullBatches rs) (Word.count32 - 1)) r =
      min (fullBatches (rs ++ [r])) (Word.count32 - 1) := by
  rw [fullBatches_append]
  cases r with
  | more =>
    simp only [nextStreak, lengthen, Word.count32, if_true]
    omega
  | _ => rfl

def Paces (pruneInterval : Duration) (before : List (Nat × Mark)) (entry : Nat × Mark) : Prop :=
  ∀ plain, entry.2 = .rest plain → plain = pause (fullBatches (results before)) pruneInterval

theorem paces_other {pruneInterval : Duration} {before : List (Nat × Mark)} {t : Nat} {mark : Mark}
    (other : ∀ plain, mark ≠ .rest plain) : Paces pruneInterval before (t, mark) :=
  fun plain same => absurd same (other plain)

theorem results_append (log : List (Nat × Mark)) (t : Nat) (mark : Mark) :
    results (log ++ [(t, mark)]) =
      results log ++ match mark with | .returned r => [r] | _ => [] := by
  rw [results, List.filterMap_append]
  cases mark <;> rfl

def Phase.streak? : Phase → Option Nat
  | idle streak | resting streak _ | pruning streak _ => some streak
  | _ => none

section Run
variable {s : Settings} {clock : Nat → Clock} {t₀ t : Nat} {shutdownAt : Option Nat}
variable {m : Timed.Moment Watch}

/-- How the phase comes from the last entry of the log. -/
def Stands (shutdownAt : Option Nat) (now : Nat) (down : Bool) (last : Nat × Mark) : Phase → Prop
  | .idle _ => (last.2 = .started ∨ ∃ r, last.2 = .returned r) ∧ last.1 = now
  | .resting _ wakeAt => ∃ plain drawn, last.2 = .rest plain ∧ isSpread plain drawn = true ∧
      wakeAt = last.1 + drawn ∧ now ≤ wakeAt ∧ (down = true → now ∈ shutdownAt)
  | .pruning _ _ => ∃ cutoff, last.2 = .began cutoff
  | .stopped => last = (now, .stopped) ∧ down = true
  | .panicked => False

structure Steady (s : Settings) (clock : Nat → Clock) (t₀ : Nat) (shutdownAt : Option Nat)
    (m : Timed.Moment Watch) : Prop where
  last : ∃ last, Logged (Next s clock shutdownAt) (t₀, .started) m.state.log last ∧
    last.1 ≤ m.now ∧ Stands shutdownAt m.now m.state.down last m.state.phase
  paces : Fits (Paces s.pruneInterval) m.state.log
  streak : ∀ streak ∈ m.state.phase.streak?,
    streak = min (fullBatches (results m.state.log)) (Word.count32 - 1)

theorem Steady.start : Steady s clock t₀ shutdownAt (start shutdownAt t₀) where
  last := ⟨(t₀, .started), .singleton _, le_rfl, .inl rfl, rfl⟩
  paces := by
    have first : Paces s.pruneInterval [] (t₀, .started) := paces_other nofun
    exact Fits.nil.append first
  streak := by
    rintro _ ⟨⟩
    rfl

theorem eq_now_of_idle (waits : (timed s clock shutdownAt).MayWait m t) {streak : Nat}
    (phase : m.state.phase = .idle streak) : t = m.now :=
  Closable.eq_now_of_deadline waits (by rw [phase]; exact .head _) m.now.zero_le

theorem le_of_resting (waits : (timed s clock shutdownAt).MayWait m t) {streak wakeAt : Nat}
    (phase : m.state.phase = .resting streak wakeAt) :
    t ≤ max (if m.state.down then 0 else wakeAt) m.now :=
  Closable.le_of_deadline waits (by rw [phase]; exact .head _)

theorem eq_now_of_resting (waits : (timed s clock shutdownAt).MayWait m t) {streak wakeAt : Nat}
    (phase : m.state.phase = .resting streak wakeAt) (down : m.state.down = true) : t = m.now :=
  Closable.eq_now_of_deadline waits (by rw [phase, down]; exact .head _) m.now.zero_le

theorem Steady.shutdown (h : Steady s clock t₀ shutdownAt m)
    (waits : (timed s clock shutdownAt).MayWait m t) (up : m.state.down = false)
    (fires : t ∈ shutdownAt) : Steady s clock t₀ shutdownAt (shut m t) := by
  obtain ⟨last, logged, past, stands⟩ := h.last
  refine ⟨⟨last, logged, past.trans waits.1, ?_⟩, h.paces, h.streak⟩
  change Stands shutdownAt t true last m.state.phase
  cases phase : m.state.phase with
  | idle streak =>
    rw [phase] at stands
    have still := eq_now_of_idle waits phase
    exact ⟨stands.1, stands.2.trans still.symm⟩
  | resting streak wakeAt =>
    rw [phase, up] at stands
    obtain ⟨plain, drawn, rest, spread, wake, before, -⟩ := stands
    have soon := le_of_resting waits phase
    rw [up, if_neg Bool.false_ne_true, max_eq_left before] at soon
    exact ⟨plain, drawn, rest, spread, wake, soon, fun _ => fires⟩
  | pruning streak cutoff =>
    rw [phase] at stands
    exact stands
  | stopped =>
    rw [phase, up] at stands
    exact absurd stands.2 Bool.false_ne_true
  | panicked =>
    rw [phase] at stands
    exact stands

theorem Steady.paced (h : Steady s clock t₀ shutdownAt m) {streak : Nat}
    (phase : m.state.phase = .idle streak) :
    Paces s.pruneInterval m.state.log (t, .rest (pause streak s.pruneInterval)) := by
  intro plain same
  have counted := h.streak streak (by rw [phase]; rfl)
  cases same
  rw [counted, pause_min]

section Step
variable (h : Steady s clock t₀ shutdownAt m) (punctual : Punctual shutdownAt m)
variable (waits : (timed s clock shutdownAt).MayWait m t)
include h waits

theorem Steady.rests {streak drawn : Nat} (phase : m.state.phase = .idle streak)
    (up : m.state.down = false) (spread : isSpread (pause streak s.pruneInterval) drawn = true) :
    Steady s clock t₀ shutdownAt
      (after m t (.resting streak (t + drawn)) [.rest (pause streak s.pruneInterval)]) := by
  obtain ⟨⟨t', mark⟩, logged, past, stands⟩ := h.last
  have counted := h.streak streak (by rw [phase]; rfl)
  rw [phase] at stands
  obtain ⟨ready, since⟩ := stands
  obtain rfl : t = t' := (eq_now_of_idle waits phase).trans since.symm
  refine ⟨⟨_, logged.append (.rest ready), le_rfl, _, drawn, rfl, spread, rfl,
    Nat.le_add_right t drawn, ?_⟩, h.paces.append (h.paced phase), ?_⟩
  · rw [down_after, up]
    exact nofun
  · rintro _ ⟨⟩
    rw [log_after, List.map_singleton, results_append, List.append_nil]
    exact counted

include punctual in
theorem Steady.stops {streak : Nat} (phase : m.state.phase = .idle streak)
    (down : m.state.down = true) :
    Steady s clock t₀ shutdownAt
      (after m t .stopped [.rest (pause streak s.pruneInterval), .stopped]) := by
  obtain ⟨⟨t', mark⟩, logged, past, stands⟩ := h.last
  rw [phase] at stands
  obtain ⟨ready, since⟩ := stands
  obtain rfl : t = t' := (eq_now_of_idle waits phase).trans since.symm
  obtain ⟨f, hf, fired⟩ := punctual.fired down
  have before : f ≤ t := fired.trans since.ge
  have stop : Next s clock shutdownAt (t, .rest (pause streak s.pruneInterval))
      (max t f, .stopped) :=
    .stop hf (isSpread_nanos _) (before.trans (Nat.le_add_right _ _))
  rw [max_eq_left before] at stop
  have stops := (logged.append (.rest ready)).append stop
  have halt (log : List (Nat × Mark)) : Paces s.pruneInterval log (t, .stopped) :=
    paces_other nofun
  have paces := (h.paces.append (h.paced (t := t) phase)).append (halt _)
  rw [List.append_assoc] at stops paces
  exact ⟨⟨_, stops, le_rfl, rfl, down⟩, paces, nofun⟩

include punctual in
theorem Steady.wakes {streak wakeAt : Nat} (phase : m.state.phase = .resting streak wakeAt)
    (due : wakeAt ≤ t) :
    let cutoff := (reading clock t).before s.keepFinished
    Steady s clock t₀ shutdownAt (after m t (.pruning streak cutoff) [.began cutoff]) := by
  obtain ⟨⟨t', mark⟩, logged, past, stands⟩ := h.last
  have counted := h.streak streak (by rw [phase]; rfl)
  have soon := le_of_resting waits phase
  have later := waits.1
  have still := eq_now_of_resting waits phase
  rw [phase] at stands
  obtain ⟨plain, drawn, rest, spread, wake, before, fired⟩ := stands
  cases rest
  dsimp only at wake
  have just : t = t' + drawn := by split at soon <;> omega
  subst just
  have early : ∀ f ∈ shutdownAt, t' + drawn ≤ f := by
    intro f hf
    obtain down | up := Bool.eq_false_or_eq_true m.state.down
    · exact ((still down).trans (Option.mem_unique (fired down) hf)).le
    · exact punctual.inTime waits up f hf
  have next : Next s clock shutdownAt (t', .rest plain)
      (t' + drawn, .began ((reading clock (t' + drawn)).before s.keepFinished)) :=
    .begin_ spread early (Instant.nanos_before _ _)
  refine ⟨⟨_, logged.append next, le_rfl, _, rfl⟩, h.paces.append (paces_other nofun), ?_⟩
  rintro _ ⟨⟩
  rw [log_after, List.map_singleton, results_append, List.append_nil]
  exact counted

theorem Steady.cut {streak wakeAt : Nat} (phase : m.state.phase = .resting streak wakeAt)
    (down : m.state.down = true) :
    Steady s clock t₀ shutdownAt (after m t .stopped [.stopped]) := by
  obtain ⟨⟨t', mark⟩, logged, past, stands⟩ := h.last
  obtain rfl := eq_now_of_resting waits phase down
  rw [phase] at stands
  obtain ⟨plain, drawn, rest, spread, rfl, before, fired⟩ := stands
  cases rest
  have stop : Next s clock shutdownAt (t', .rest plain) (max t' m.now, .stopped) :=
    .stop (fired down) spread before
  rw [max_eq_right past] at stop
  exact ⟨⟨_, logged.append stop, le_rfl, rfl, down⟩, h.paces.append (paces_other nofun), nofun⟩

theorem Steady.pruned {streak : Nat} {cutoff : Instant}
    (phase : m.state.phase = .pruning streak cutoff) (r : Pruned) :
    Steady s clock t₀ shutdownAt (after m t (.idle (nextStreak streak r)) [.returned r]) := by
  obtain ⟨⟨t', mark⟩, logged, past, stands⟩ := h.last
  have counted := h.streak streak (by rw [phase]; rfl)
  rw [phase] at stands
  obtain ⟨cutoff, begun⟩ := stands
  cases begun
  refine ⟨⟨_, logged.append (.returned (past.trans waits.1)), le_rfl, .inr ⟨r, rfl⟩, rfl⟩,
    h.paces.append (paces_other nofun), ?_⟩
  rintro _ ⟨⟩
  rw [log_after, List.map_singleton, results_append, counted, nextStreak_min]

include punctual in
theorem Steady.step {e : Event} {q : Phase} {marks : List Mark}
    (stepped : (closable s clock).step m.state.down t m.state.phase e = some (q, marks)) :
    Steady s clock t₀ shutdownAt (after m t q marks) := by
  obtain ⟨calm, moved⟩ := Option.ite_none_left_eq_some.mp stepped
  obtain ⟨q, leads, eq⟩ := Option.map_eq_some_iff.mp moved
  cases eq
  rw [step_eq_some_iff] at leads
  cases e with
  | rest drawn =>
    obtain ⟨streak, phase, next⟩ := leads
    rw [phase]
    obtain down | up := Bool.eq_false_or_eq_true m.state.down
    · rw [if_pos down] at next
      cases next
      exact h.stops punctual waits phase down
    · rw [if_neg (Bool.eq_false_iff.mp up)] at next
      obtain ⟨spread, rfl⟩ := next
      exact h.rests waits phase up spread
  | wake =>
    obtain ⟨streak, wakeAt, phase, due, rfl⟩ := leads
    rw [phase]
    exact h.wakes punctual waits phase due
  | cut =>
    obtain ⟨⟨streak, wakeAt, phase⟩, down, rfl⟩ := leads
    rw [phase]
    exact h.cut waits phase down
  | pruned r =>
    obtain ⟨streak, cutoff, phase, next⟩ := leads
    rw [if_neg (by rintro rfl; exact calm rfl)] at next
    cases next
    rw [phase]
    exact h.pruned waits phase r

end Step

theorem turn_isSome (waits : (timed s clock shutdownAt).MayWait m t) {e : Event} {q : Phase}
    (calm : e ≠ .pruned .panicked)
    (leads : Leads ⟨s, clock t, m.state.down, t⟩ m.state.phase q e) :
    ((timed s clock shutdownAt).tick? m t (.loop e)).isSome = true := by
  refine Closable.isSome_loop waits ?_
  simp only [closable, if_neg calm, step_eq_some_iff.mpr leads]
  rfl

theorem rest_isSome (punctual : Punctual shutdownAt m) {streak wakeAt : Nat}
    (phase : m.state.phase = .resting streak wakeAt) (ahead : m.now ≤ wakeAt) :
    ∃ t turn, ((timed s clock shutdownAt).tick? m t turn).isSome = true := by
  cases down : m.state.down with
  | true =>
    exact ⟨_, _, turn_isSome (e := .cut) (Timed.mayWait_now _ m) nofun ⟨⟨_, _, phase⟩, down, rfl⟩⟩
  | false =>
    have only : (closable s clock).deadlines false m.state.phase = [wakeAt] := by
      rw [phase]
      rfl
    obtain ⟨t, waits, rfl | fires⟩ := Closable.reaches_deadline punctual down only ahead
    · exact ⟨t, _, turn_isSome (e := .wake) waits nofun ⟨_, _, phase, le_rfl, rfl⟩⟩
    · exact ⟨t, _, Closable.isSome_shutdown waits down fires le_rfl⟩

theorem Steady.goesOn_iff (h : Steady s clock t₀ shutdownAt m)
    (punctual : Punctual shutdownAt m) :
    m.state.phase ≠ .stopped ↔
      ∃ t turn, ((timed s clock shutdownAt).tick? m t turn).isSome = true := by
  have waits := Timed.mayWait_now (timed s clock shutdownAt) m
  obtain ⟨last, logged, past, stands⟩ := h.last
  cases phase : m.state.phase with
  | idle streak =>
    refine iff_of_true nofun ⟨_, _, turn_isSome (e := .rest (pause streak s.pruneInterval).nanos)
      (q := if m.state.down then .stopped else
        .resting streak (m.now + (pause streak s.pruneInterval).nanos)) waits nofun
      ⟨streak, phase, ?_⟩⟩
    cases m.state.down with
    | true => exact rfl
    | false => exact ⟨isSpread_nanos _, rfl⟩
  | resting streak wakeAt =>
    rw [phase] at stands
    obtain ⟨_, _, -, -, -, ahead, -⟩ := stands
    exact iff_of_true nofun (rest_isSome punctual phase ahead)
  | pruning streak cutoff =>
    exact iff_of_true nofun
      ⟨_, _, turn_isSome (e := .pruned .done) waits nofun ⟨streak, cutoff, phase, rfl⟩⟩
  | stopped =>
    refine iff_of_false (fun h => h rfl) ?_
    rintro ⟨t, turn, able⟩
    rw [phase] at stands
    obtain ⟨m', tick⟩ := Option.isSome_iff_exists.mp able
    cases (Closable.follows_of_tick tick).2 with
    | shutdown up => exact Bool.false_ne_true (up.symm.trans stands.2)
    | @loop e q marks step =>
      rw [phase] at step
      cases e <;> simp [closable, Cleaner.step] at step
  | panicked =>
    rw [phase] at stands
    exact stands.elim

theorem pause_cases {pruneInterval : Duration} (long : Duration.minute ≤ pruneInterval) (n : Nat) :
    (pause n pruneInterval = .ofSeconds 5 ↔ 1 ≤ n ∧ n ≤ 15) ∧
      (¬(1 ≤ n ∧ n ≤ 15) → pause n pruneInterval = pruneInterval) := by
  have short : pruneInterval ≠ .ofSeconds 5 := by
    rintro rfl
    revert long
    decide
  have busy : (0 < n ∧ n < mostBusy) ↔ 1 ≤ n ∧ n ≤ 15 := by
    rw [mostBusy]
    omega
  simp only [pause, busy, busyPause]
  split
  next few => exact ⟨iff_of_true rfl few, fun many => absurd few many⟩
  next many => exact ⟨iff_of_false short many, fun _ => rfl⟩

structure Pacing (s : Settings) (clock : Nat → Clock) (t₀ : Nat) (shutdownAt : Option Nat)
    (m : Timed.Moment Watch) : Prop where
  starts : m.state.log.head? = some (t₀, .started)
  follows : m.state.log.IsChain (Next s clock shutdownAt)
  /-- A rest is short just after one to fifteen full batches in a row, back to the last other result
  or the start; else it is the interval between prunes. -/
  pauses : ∀ i t plain, m.state.log[i]? = some (t, .rest plain) →
    let streak := fullBatches (results (m.state.log.take i))
    (plain = .ofSeconds 5 ↔ 1 ≤ streak ∧ streak ≤ 15) ∧
      (¬(1 ≤ streak ∧ streak ≤ 15) → plain = s.pruneInterval)
  /-- It does not rest for longer than that, spread around, nor once shutdown has fired. -/
  last : ∀ t plain, m.state.log.getLast? = some (t, .rest plain) →
    (∃ drawn, isSpread plain drawn = true ∧ m.now ≤ t + drawn) ∧ ∀ f ∈ shutdownAt, m.now ≤ max t f
  returns : ∀ streak cutoff r t, m.state.phase = .pruning streak cutoff → r ≠ .panicked →
    (timed s clock shutdownAt).MayWait m t →
      ((timed s clock shutdownAt).tick? m t (.loop (.pruned r))).isSome = true
  ends : ∀ r, kind.ending? m.state.phase = some r → r = .ok ∧
    m.state.log.getLast? = some (m.now, .stopped) ∧ ∃ f ∈ shutdownAt, f ≤ m.now
  goesOn : kind.ending? m.state.phase = none ↔
    ∃ t turn, ((timed s clock shutdownAt).tick? m t turn).isSome = true

theorem Steady.pacing (h : Steady s clock t₀ shutdownAt m)
    (punctual : Punctual shutdownAt m) (long : Duration.minute ≤ s.pruneInterval) :
    Pacing s clock t₀ shutdownAt m := by
  obtain ⟨last, logged, past, stands⟩ := h.last
  refine ⟨logged.head, logged.chain, fun i t plain entry => ?_, fun t plain rest => ?_,
    fun streak cutoff r t phase calm waits => ?_, fun r ended => ?_, ?_⟩
  · rw [h.paces i (t, .rest plain) entry plain rfl]
    exact pause_cases long _
  · cases Option.some.inj (logged.last.symm.trans rest)
    cases phase : m.state.phase with
    | resting streak wakeAt =>
      rw [phase] at stands
      obtain ⟨plain', drawn, same, spread, wake, before, fired⟩ := stands
      cases same
      refine ⟨⟨drawn, spread, wake ▸ before⟩, fun f hf => ?_⟩
      cases down : m.state.down with
      | true => exact (Option.mem_unique (fired down) hf).le.trans (Nat.le_max_right _ _)
      | false => exact (punctual.early down f hf).trans (Nat.le_max_right _ _)
    | _ =>
      rw [phase] at stands
      simp [Stands] at stands
  · exact turn_isSome waits (by rintro ⟨⟩; exact calm rfl) ⟨streak, cutoff, phase, rfl⟩
  · cases phase : m.state.phase with
    | stopped =>
      rw [phase] at ended stands
      cases ended
      exact ⟨rfl, stands.1 ▸ logged.last, punctual.fired stands.2⟩
    | panicked =>
      rw [phase] at stands
      exact stands.elim
    | _ =>
      rw [phase] at ended
      cases ended
  · rw [← h.goesOn_iff punctual]
    cases phase : m.state.phase with
    | stopped => exact iff_of_false nofun fun h => h rfl
    | panicked =>
      rw [phase] at stands
      exact stands.elim
    | _ => exact iff_of_true rfl nofun

/-- Whatever prunes come to and however long they take, and however often the clock is set: the
pause before a prune is the one for the results so far, its cutoff is the retention before what the
clock shows, and the loop goes on until shutdown cuts a rest short. -/
theorem pauses_follow_results (raw : Settings) (clock : Nat → Clock) (t₀ : Nat)
    (shutdownAt : Option Nat) {turns : List (Nat × Closable.Turn Event)}
    (run : (timed raw.clamped clock shutdownAt).run? (start shutdownAt t₀) turns = some m) :
    Pacing raw.clamped clock t₀ shutdownAt m := by
  obtain ⟨steady, punctual⟩ := Closable.run?_induction (P := Steady raw.clamped clock t₀ shutdownAt)
    (fun _ _ h => h.shutdown) (fun _ _ _ _ _ h punctual waits => h.step punctual waits)
    Steady.start (.start _ _ _) run
  exact steady.pacing punctual raw.clamped_safe.prune.1

def interruptedAfter (now : Nat) : List (Duration × Pruned) → List (Nat × Closable.Turn Event)
  | [] =>
    let fires := now + Duration.nanos (.ofSeconds 2)
    [(now, .loop (.rest busyPause.nanos)), (fires, .shutdown), (fires, .loop .cut)]
  | (pause, r) :: rest =>
    let wakes := now + pause.nanos
    (now, .loop (.rest pause.nanos)) :: (wakes, .loop .wake) :: (wakes, .loop (.pruned r)) ::
      interruptedAfter wakes rest

def longBacklog : List (Duration × Pruned) :=
  (.hour, .more) :: List.replicate 15 (busyPause, .more) ++
    [(.hour, .more), (.hour, .failed), (.hour, .more)]

theorem longBacklog_paced :
    let fires := 4 * Duration.hour.nanos + Duration.nanos (.ofSeconds 77)
    let clock (_ : Nat) : Clock := ⟨.epoch⟩
    ∃ m, (timed (Settings.clamped {}) clock (some fires)).run? (start (some fires) 0)
        (interruptedAfter 0 longBacklog) = some m ∧
      kind.ending? m.state.phase = some .ok ∧ m.now = fires ∧
      m.state.log.filterMap (fun | (_, .rest plain) => some plain | _ => none) =
        .hour :: List.replicate 15 (.ofSeconds 5) ++ [.hour, .hour, .hour, .ofSeconds 5] ∧
      Pacing (Settings.clamped {}) clock 0 (some fires) m := by
  intro fires clock
  have ended : ((timed (Settings.clamped {}) clock (some fires)).run? (start (some fires) 0)
      (interruptedAfter 0 longBacklog)).map (fun m => (kind.ending? m.state.phase, m.now,
        m.state.log.filterMap (fun | (_, .rest plain) => some plain | _ => none))) =
      some (some .ok, fires,
        .hour :: List.replicate 15 (.ofSeconds 5) ++ [.hour, .hour, .hour, .ofSeconds 5]) := by
    decide +kernel
  obtain ⟨m, run, shape⟩ := Option.map_eq_some_iff.mp ended
  rw [Prod.mk.injEq, Prod.mk.injEq] at shape
  exact ⟨m, run, shape.1, shape.2.1, shape.2.2, pauses_follow_results {} clock 0 (some fires) run⟩

end Run
end Cleaner
end DelayedJobs
