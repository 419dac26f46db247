import DelayedJobs.Proofs.Timed.Supervision

/-!
What a supervisor does in the course of time. Behind the gate it starts one run after the other,
with a pause after each failure; a run that ends well, a dropped gate or shutdown outside of a run
make it return, and nothing else does.
-/

namespace DelayedJobs
namespace Supervisor
open Closable (Punctual after shut down_after log_after)

section Run
variable {gate : GateFate} {t₀ t : Nat} {shutdownAt : Option Nat} {m : Timed.Moment Watch}

/-- Since the last entry of the log a failed run waits to be started anew. -/
def Pauses (shutdownAt : Option Nat) (now : Nat) (down : Bool) (last : Nat × Mark)
    (k : UInt32) (wakeAt : Nat) : Prop :=
  ∃ r pause, r ≠ .ok ∧ last.2 = .ended r k ∧ Restart k pause ∧ wakeAt = last.1 + pause ∧
    now ≤ wakeAt ∧ (down = true → now ∈ shutdownAt)

def Stands (gate : GateFate) (t₀ : Nat) (shutdownAt : Option Nat) (now : Nat) (down : Bool)
    (last : Nat × Mark) : Phase → Prop
  | .gated => last = (t₀, .started) ∧ (∀ g ∈ gate.instants, now ≤ max t₀ g) ∧
      (down = true → ∃ f ∈ shutdownAt, now = max t₀ f)
  | .checking k => (k = 0 ∧ last = (now, .opened)) ∨ Pauses shutdownAt now down last k now
  | .running k => last.2 = .began k
  | .pausing k wakeAt => Pauses shutdownAt now down last k wakeAt
  | .returned => last.2 = .returned

/-- Why a supervisor has returned: a run has ended well, the gate was dropped, or shutdown has fired
while no run is under way. -/
def Cause (gate : GateFate) (shutdownAt : Option Nat) (m : Timed.Moment Watch) : Prop :=
  (∃ t k, (t, .ended .ok k) ∈ m.state.log) ∨ gate.isDropped m.now = true ∨
    (∃ f ∈ shutdownAt, f ≤ m.now) ∧ m.state.phase.isRunning = false

structure Steady (gate : GateFate) (t₀ : Nat) (shutdownAt : Option Nat) (m : Timed.Moment Watch) :
    Prop where
  last : ∃ last, Logged (Next gate t₀ shutdownAt) (t₀, .started) m.state.log last ∧
    last.1 ≤ m.now ∧ Stands gate t₀ shutdownAt m.now m.state.down last m.state.phase
  ledger : Ledger gate shutdownAt m.state.log m.state.phase
  opened : m.state.phase = .gated ∨ m.state.phase = .returned ∨ gate.isOpen m.now = true
  cause : m.state.phase = .returned → Cause gate shutdownAt m

theorem Steady.start : Steady gate t₀ shutdownAt (start shutdownAt t₀) where
  last := by
    refine ⟨(t₀, .started), .singleton _, le_rfl, rfl, fun g _ => Nat.le_max_left t₀ g,
      fun down => ?_⟩
    obtain ⟨f, hf, past⟩ := (Option.any_eq_true _ _).mp down
    exact ⟨f, hf, (max_eq_left (of_decide_eq_true past).le).symm⟩
  ledger := .start t₀
  opened := .inl rfl
  cause := nofun

section Waits
variable (waits : (timed gate shutdownAt).MayWait m t)
include waits

theorem eq_of_checking {k : UInt32} (phase : m.state.phase = .checking k) : t = m.now :=
  Closable.eq_now_of_deadline waits (by rw [phase]; exact .head _) m.now.zero_le

theorem le_of_pausing {k : UInt32} {wakeAt : Nat} (phase : m.state.phase = .pausing k wakeAt) :
    t ≤ max (if m.state.down then 0 else wakeAt) m.now :=
  Closable.le_of_deadline waits (by rw [phase]; exact .head _)

theorem eq_of_gated (phase : m.state.phase = .gated) (down : m.state.down = true) : t = m.now :=
  Closable.eq_now_of_deadline waits (by rw [phase, down]; exact .head _) m.now.zero_le

theorem eq_of_pausing {k : UInt32} {wakeAt : Nat} (phase : m.state.phase = .pausing k wakeAt)
    (down : m.state.down = true) : t = m.now :=
  Closable.eq_now_of_deadline waits (by rw [phase, down]; exact .head _) m.now.zero_le

theorem le_of_gated (phase : m.state.phase = .gated)
    (before : ∀ g ∈ gate.instants, m.now ≤ max t₀ g) : ∀ g ∈ gate.instants, t ≤ max t₀ g := by
  intro g hg
  have soon := before g hg
  cases down : m.state.down with
  | true => exact (eq_of_gated waits phase down).trans_le soon
  | false =>
    have deadline : t ≤ max g m.now := Closable.le_of_deadline waits (by rw [phase, down]; exact hg)
    omega

end Waits

theorem Steady.isOpen (h : Steady gate t₀ shutdownAt m) (past : m.state.phase ≠ .gated)
    (going : m.state.phase ≠ .returned) : gate.isOpen m.now = true :=
  (h.opened.resolve_left past).resolve_left going

theorem Steady.shutdown (h : Steady gate t₀ shutdownAt m)
    (waits : (timed gate shutdownAt).MayWait m t) (up : m.state.down = false)
    (fires : t ∈ shutdownAt) : Steady gate t₀ shutdownAt (shut m t) := by
  obtain ⟨last, logged, past, stands⟩ := h.last
  refine ⟨⟨last, logged, past.trans waits.1, ?_⟩, h.ledger, ?_, fun returned => ?_⟩
  · change Stands gate t₀ shutdownAt t true last m.state.phase
    cases phase : m.state.phase with
    | gated =>
      rw [phase] at stands
      obtain ⟨rfl, before, -⟩ := stands
      have since : t₀ ≤ t := past.trans waits.1
      exact ⟨rfl, le_of_gated waits phase before, fun _ => ⟨t, fires, (max_eq_right since).symm⟩⟩
    | checking k =>
      rw [phase] at stands
      obtain rfl := eq_of_checking waits phase
      obtain first | ⟨r, pause, failed, ended, within, woken, before, -⟩ := stands
      · exact .inl first
      · exact .inr ⟨r, pause, failed, ended, within, woken, before, fun _ => fires⟩
    | running k =>
      rw [phase] at stands
      exact stands
    | pausing k wakeAt =>
      rw [phase] at stands
      obtain ⟨r, pause, failed, ended, within, wake, before, -⟩ := stands
      have soon := le_of_pausing waits phase
      rw [up, if_neg Bool.false_ne_true, max_eq_left before] at soon
      exact ⟨r, pause, failed, ended, within, wake, soon, fun _ => fires⟩
    | returned =>
      rw [phase] at stands
      exact stands
  · exact h.opened.imp_right (Or.imp_right fun opened => GateFate.isOpen_mono opened waits.1)
  · obtain well | dropped | ⟨⟨f, hf, fired⟩, idle⟩ := h.cause returned
    · exact .inl well
    · exact .inr (.inl (GateFate.isDropped_mono dropped waits.1))
    · exact .inr (.inr ⟨⟨f, hf, fired.trans waits.1⟩, idle⟩)

theorem Steady.returns (h : Steady gate t₀ shutdownAt m) {last : Nat × Mark}
    (logged : Logged (Next gate t₀ shutdownAt) (t₀, .started) m.state.log last)
    (next : Next gate t₀ shutdownAt last (t, .returned)) (idle : m.state.phase.isRunning = false)
    (cause : gate.isDropped t = true ∨ ∃ f ∈ shutdownAt, f ≤ t) :
    Steady gate t₀ shutdownAt (after m t .returned [.returned]) where
  last := ⟨_, logged.append next, le_rfl, rfl⟩
  ledger := h.ledger.returned idle
  opened := .inr (.inl rfl)
  cause _ := .inr (cause.imp_right fun fired => ⟨fired, rfl⟩)

theorem Pauses.cut {last : Nat × Mark} {k : UInt32} {now wakeAt : Nat}
    (h : Pauses shutdownAt now true last k wakeAt) (past : last.1 ≤ now) :
    Next gate t₀ shutdownAt last (now, .returned) := by
  obtain ⟨t', mark⟩ := last
  obtain ⟨r, pause, failed, ended, within, rfl, before, fires⟩ := h
  cases ended
  have cut : Next gate t₀ shutdownAt (t', .ended r k) (max t' now, .returned) :=
    .cut failed within (fires rfl) before
  rwa [max_eq_right past] at cut

section Step
variable (h : Steady gate t₀ shutdownAt m) (punctual : Punctual shutdownAt m)
variable (waits : (timed gate shutdownAt).MayWait m t)
include h waits

theorem Steady.gateOpened (phase : m.state.phase = .gated) (opens : gate.isOpen t = true) :
    Steady gate t₀ shutdownAt (after m t (.checking 0) [.opened]) := by
  obtain ⟨last, logged, past, stands⟩ := h.last
  have ledger := h.ledger
  rw [phase] at stands ledger
  obtain ⟨rfl, before, -⟩ := stands
  obtain ⟨o, rfl, passed⟩ := GateFate.isOpen_iff.mp opens
  have soon := le_of_gated waits phase before o (.head _)
  have since : t₀ ≤ t := past.trans waits.1
  have next : Next (.opens o) t₀ shutdownAt (t₀, .started) (max t₀ o, .opened) := .opened rfl
  rw [show max t₀ o = t by omega] at next
  exact ⟨⟨_, logged.append next, le_rfl, .inl ⟨rfl, rfl⟩⟩, ledger.opened, .inr (.inr opens), nofun⟩

theorem Steady.gateDropped (phase : m.state.phase = .gated) (drops : gate.isDropped t = true) :
    Steady gate t₀ shutdownAt (after m t .returned [.returned]) := by
  obtain ⟨last, logged, past, stands⟩ := h.last
  rw [phase] at stands
  obtain ⟨rfl, before, -⟩ := stands
  obtain ⟨d, rfl, passed⟩ := GateFate.isDropped_iff.mp drops
  have soon := le_of_gated waits phase before d (.head _)
  have since : t₀ ≤ t := past.trans waits.1
  have next : Next (.drops d) t₀ shutdownAt (t₀, .started) (max t₀ d, .returned) := .dropped rfl
  rw [show max t₀ d = t by omega] at next
  exact h.returns logged next (by rw [phase]; rfl) (.inl drops)

include punctual in
theorem Steady.begins {k : UInt32} (phase : m.state.phase = .checking k)
    (up : m.state.down = false) :
    Steady gate t₀ shutdownAt (after m t (.running k) [.began k]) := by
  obtain ⟨⟨t', mark⟩, logged, past, stands⟩ := h.last
  have opened := h.isOpen (by rw [phase]; nofun) (by rw [phase]; nofun)
  have ledger := h.ledger
  have early := punctual.inTime waits up
  obtain rfl := eq_of_checking waits phase
  rw [phase] at stands ledger
  have next : Next gate t₀ shutdownAt (t', mark) (m.now, .began k) := by
    obtain ⟨rfl, first⟩ | ⟨r, pause, failed, ended, within, woken, -, -⟩ := stands
    · cases first
      exact .first early
    · cases ended
      dsimp only at woken
      rw [woken] at early ⊢
      exact .again failed within early
  exact ⟨⟨_, logged.append next, le_rfl, rfl⟩, ledger.began opened early, .inr (.inr opened), nofun⟩

include punctual in
theorem Steady.declines {k : UInt32} (phase : m.state.phase = .checking k)
    (down : m.state.down = true) :
    Steady gate t₀ shutdownAt (after m t .returned [.returned]) := by
  obtain ⟨last, logged, past, stands⟩ := h.last
  obtain ⟨f, hf, fired⟩ := punctual.fired down
  obtain rfl := eq_of_checking waits phase
  rw [phase, down] at stands
  have next : Next gate t₀ shutdownAt last (m.now, .returned) := by
    obtain ⟨-, rfl⟩ | pauses := stands
    · exact .late hf fired
    · exact pauses.cut past
  exact h.returns logged next (by rw [phase]; rfl) (.inr ⟨f, hf, fired⟩)

theorem Steady.endsWell {k : UInt32} (phase : m.state.phase = .running k) :
    Steady gate t₀ shutdownAt (after m t .returned [.ended .ok k, .returned]) := by
  obtain ⟨⟨t', mark⟩, logged, past, stands⟩ := h.last
  have ledger := h.ledger
  rw [phase] at stands ledger
  cases stands
  have ends : Next gate t₀ shutdownAt (t', .began k) (t, .ended .ok (countEnd k .ok)) :=
    .ended (past.trans waits.1)
  have logged := (logged.append ends).append .well
  rw [List.append_assoc] at logged
  exact ⟨⟨_, logged, le_rfl, rfl⟩, ledger.success, .inr (.inl rfl), fun _ => .inl ⟨t, k, by simp⟩⟩

theorem Steady.fails {k : UInt32} {pause : Nat} {r : RunEnd} (phase : m.state.phase = .running k)
    (failed : r ≠ .ok) (within : Restart (k + 1) pause) (up : m.state.down = false) :
    Steady gate t₀ shutdownAt
      (after m t (.pausing (k + 1) (t + pause)) [.ended r (countEnd k r)]) := by
  obtain ⟨⟨t', mark⟩, logged, past, stands⟩ := h.last
  have opened := h.isOpen (by rw [phase]; nofun) (by rw [phase]; nofun)
  have ledger := h.ledger
  rw [phase] at stands ledger
  cases stands
  refine ⟨⟨_, logged.append (.ended (past.trans waits.1)), le_rfl, r, pause, failed, ?_,
    within, rfl, Nat.le_add_right t pause, ?_⟩, ledger.failure failed _,
    .inr (.inr (GateFate.isOpen_mono opened waits.1)), nofun⟩
  · rw [countEnd, if_neg failed]
  · rw [down_after, up]
    exact nofun

include punctual in
theorem Steady.failsLate {k : UInt32} {pause : Nat} {r : RunEnd}
    (phase : m.state.phase = .running k)
    (failed : r ≠ .ok) (within : Restart (k + 1) pause) (down : m.state.down = true) :
    Steady gate t₀ shutdownAt
      (after m t .returned [.ended r (countEnd k r), .returned]) := by
  obtain ⟨⟨t', mark⟩, logged, past, stands⟩ := h.last
  obtain ⟨f, hf, fired⟩ := punctual.fired down
  have passed : f ≤ t := fired.trans waits.1
  have ledger := h.ledger
  rw [phase] at stands ledger
  cases stands
  have cut : Next gate t₀ shutdownAt (t, .ended r (countEnd k r)) (max t f, .returned) := by
    rw [countEnd, if_neg failed]
    exact .cut failed within hf (passed.trans (Nat.le_add_right t pause))
  rw [max_eq_left passed] at cut
  have logged := (logged.append (.ended (past.trans waits.1))).append cut
  have ledger := (ledger.failure (t := t) failed t).returned (t := t) rfl
  rw [List.append_assoc] at logged ledger
  exact ⟨⟨_, logged, le_rfl, rfl⟩, ledger, .inr (.inl rfl),
    fun _ => .inr (.inr ⟨⟨f, hf, passed⟩, rfl⟩)⟩

theorem Steady.wake {k : UInt32} {wakeAt : Nat} (phase : m.state.phase = .pausing k wakeAt)
    (due : wakeAt ≤ t) :
    Steady gate t₀ shutdownAt (after m t (.checking k) []) := by
  obtain ⟨last, logged, past, stands⟩ := h.last
  have opened := h.isOpen (by rw [phase]; nofun) (by rw [phase]; nofun)
  have ledger := h.ledger
  have soon := le_of_pausing waits phase
  have later := waits.1
  have still := eq_of_pausing waits phase
  rw [phase] at stands ledger
  obtain ⟨r, pause, failed, ended, within, wake, before, fires⟩ := stands
  have just : t = wakeAt := by split at soon <;> omega
  rw [after, List.map_nil, List.append_nil]
  exact ⟨⟨last, logged, past.trans later, .inr ⟨r, pause, failed, ended, within, just.trans wake,
    le_rfl, fun down => still down ▸ fires down⟩⟩, ledger.woken,
    .inr (.inr (GateFate.isOpen_mono opened later)), nofun⟩

include punctual in
theorem Steady.cut (phase : m.state.phase = .gated ∨ ∃ k wakeAt, m.state.phase = .pausing k wakeAt)
    (down : m.state.down = true) :
    Steady gate t₀ shutdownAt (after m t .returned [.returned]) := by
  obtain ⟨last, logged, past, stands⟩ := h.last
  obtain ⟨f, hf, fired⟩ := punctual.fired down
  obtain phase | ⟨k, wakeAt, phase⟩ := phase
  · obtain rfl := eq_of_gated waits phase down
    rw [phase] at stands
    obtain ⟨rfl, before, fires⟩ := stands
    obtain ⟨f', hf', now⟩ := fires down
    have next : Next gate t₀ shutdownAt (t₀, .started) (max t₀ f', .returned) :=
      .leave hf' fun g hg => ((Nat.le_max_right t₀ f').trans now.ge).trans (before g hg)
    rw [← now] at next
    exact h.returns logged next (by rw [phase]; rfl) (.inr ⟨f, hf, fired⟩)
  · obtain rfl := eq_of_pausing waits phase down
    rw [phase, down] at stands
    exact h.returns logged (stands.cut past) (by rw [phase]; rfl) (.inr ⟨f, hf, fired⟩)

include punctual in
theorem Steady.step {e : Event} {q : Phase} {marks : List Mark}
    (stepped : (closable gate).step m.state.down t m.state.phase e = some (q, marks)) :
    Steady gate t₀ shutdownAt (after m t q marks) := by
  obtain ⟨allowed, moved⟩ := Option.ite_none_right_eq_some.mp stepped
  obtain ⟨q, leads, eq⟩ := Option.map_eq_some_iff.mp moved
  cases eq
  rw [step_eq_some_iff] at leads
  cases e with
  | gateOpened =>
    obtain ⟨phase, rfl⟩ := leads
    exact h.gateOpened waits phase allowed
  | gateDropped =>
    obtain ⟨phase, rfl⟩ := leads
    exact h.gateDropped waits phase allowed
  | go =>
    obtain ⟨k, phase, next⟩ := leads
    rw [phase]
    obtain down | up := Bool.eq_false_or_eq_true m.state.down
    · rw [if_pos down] at next
      cases next
      exact h.declines punctual waits phase down
    · rw [if_neg (Bool.eq_false_iff.mp up)] at next
      cases next
      exact h.begins punctual waits phase up
  | runEnded r pause =>
    cases r with
    | ok =>
      obtain ⟨⟨k, phase⟩, rfl⟩ := leads
      rw [phase]
      exact h.endsWell waits phase
    | failed | panicked =>
      obtain ⟨k, phase, between, next⟩ := leads
      have within := restart_of_between between
      rw [phase]
      obtain down | up := Bool.eq_false_or_eq_true m.state.down
      · rw [if_pos down] at next
        cases next
        exact h.failsLate punctual waits phase nofun within down
      · rw [if_neg (Bool.eq_false_iff.mp up)] at next
        cases next
        exact h.fails waits phase nofun within up
  | wake =>
    obtain ⟨k, wakeAt, phase, due, rfl⟩ := leads
    rw [phase]
    exact h.wake waits phase due
  | cut =>
    obtain ⟨phase, down, rfl⟩ := leads
    have returns := h.cut punctual waits phase down
    obtain phase | ⟨k, wakeAt, phase⟩ := phase
    · rw [phase]
      exact returns
    · rw [phase]
      exact returns

end Step

theorem turn_isSome (waits : (timed gate shutdownAt).MayWait m t) {e : Event} {q : Phase}
    (allowed : gate.allows t e = true) (leads : Leads m.state.down t m.state.phase q e) :
    ((timed gate shutdownAt).tick? m t (.loop e)).isSome = true := by
  refine Closable.isSome_loop waits ?_
  simp only [closable, if_pos allowed, step_eq_some_iff.mpr leads]
  rfl

theorem passes_or_goes (going : m.state.phase ≠ .returned) :
    (∃ t, m.now < t ∧ (timed gate shutdownAt).MayWait m t) ∨
      ∃ turn, ((timed gate shutdownAt).tick? m m.now turn).isSome = true := by
  have waits := Timed.mayWait_now (timed gate shutdownAt) m
  refine (Timed.passes_or_due (timed gate shutdownAt) m).imp_right fun ⟨d, hd, passed⟩ => ?_
  obtain fires | due := List.mem_append.mp hd
  · split at fires
    · cases fires
    next up =>
      have instant := Option.mem_toList.mp fires
      exact ⟨_, Closable.isSome_shutdown waits (Bool.eq_false_iff.mpr up) instant passed⟩
  · cases phase : m.state.phase with
    | gated =>
      obtain down | up := Bool.eq_false_or_eq_true m.state.down
      · exact ⟨_, turn_isSome (e := .cut) waits rfl ⟨.inl phase, down, rfl⟩⟩
      · rw [phase, up] at due
        cases gate with
        | closed => cases due
        | opens o =>
          cases List.mem_singleton.mp due
          exact ⟨_, turn_isSome (e := .gateOpened) waits (GateFate.isOpen_iff.mpr ⟨_, rfl, passed⟩)
            ⟨phase, rfl⟩⟩
        | drops g =>
          cases List.mem_singleton.mp due
          exact ⟨_, turn_isSome (e := .gateDropped) waits
            (GateFate.isDropped_iff.mpr ⟨_, rfl, passed⟩) ⟨phase, rfl⟩⟩
    | checking k => exact ⟨_, turn_isSome (e := .go) waits rfl ⟨k, phase, rfl⟩⟩
    | running k =>
      rw [phase] at due
      cases due
    | pausing k wakeAt =>
      obtain down | up := Bool.eq_false_or_eq_true m.state.down
      · exact ⟨_, turn_isSome (e := .cut) waits rfl ⟨.inr ⟨k, wakeAt, phase⟩, down, rfl⟩⟩
      · rw [phase, up] at due
        cases List.mem_singleton.mp due
        exact ⟨_, turn_isSome (e := .wake) waits rfl ⟨k, wakeAt, phase, passed, rfl⟩⟩
    | returned => exact absurd phase going

/-- Where time passes a supervisor has returned if there was a cause. -/
theorem Steady.returned_of_cause (h : Steady gate t₀ shutdownAt m)
    (punctual : Punctual shutdownAt m)
    (waits : (timed gate shutdownAt).MayWait m t) (passes : m.now < t)
    (cause : Cause gate shutdownAt m) : m.state.phase = .returned := by
  obtain ⟨t', k, well⟩ | dropped | ⟨⟨f, hf, fired⟩, idle⟩ := cause
  · exact h.ledger.well t' k well
  · obtain ⟨d, rfl, passed⟩ := GateFate.isDropped_iff.mp dropped
    obtain gated | returned | opened := h.opened
    · obtain down | up := Bool.eq_false_or_eq_true m.state.down
      · exact absurd (eq_of_gated waits gated down) passes.ne'
      · have due : d ∈ (closable (.drops d)).deadlines m.state.down m.state.phase := by
          rw [gated, up]
          exact .head _
        exact absurd (Closable.eq_now_of_deadline waits due passed) passes.ne'
    · exact returned
    · cases opened
  · obtain down | up := Bool.eq_false_or_eq_true m.state.down
    · cases phase : m.state.phase with
      | gated => exact absurd (eq_of_gated waits phase down) passes.ne'
      | checking k => exact absurd (eq_of_checking waits phase) passes.ne'
      | running k =>
        rw [phase] at idle
        cases idle
      | pausing k wakeAt => exact absurd (eq_of_pausing waits phase down) passes.ne'
      | returned => rfl
    · exact absurd (passes.trans_le (punctual.inTime waits up f hf)) fired.not_gt

theorem leads_down {p q : Phase} {e : Event} (leads : Leads true t p q e)
    (idle : p.isRunning = false) :
    q = .returned ∨ (∃ k, q = .checking k) ∧ ∀ k, p ≠ .checking k := by
  cases e with
  | gateOpened =>
    obtain ⟨rfl, rfl⟩ := leads
    exact .inr ⟨⟨0, rfl⟩, nofun⟩
  | gateDropped => exact .inl leads.2.symm
  | go =>
    obtain ⟨k, -, rfl⟩ := leads
    exact .inl rfl
  | runEnded r pause =>
    cases r with
    | ok => exact .inl leads.2.symm
    | failed | panicked =>
      obtain ⟨k, -, -, rfl⟩ := leads
      exact .inl rfl
  | wake =>
    obtain ⟨k, wakeAt, rfl, -, rfl⟩ := leads
    exact .inr ⟨⟨k, rfl⟩, nofun⟩
  | cut => exact .inl leads.2.2.symm

theorem not_began_of_left {p : Phase} {e : Event} {mark : Mark} (h : mark ∈ left e p) :
    mark.isBegan = false := by
  cases e with
  | gateOpened =>
    cases List.mem_singleton.mp h
    rfl
  | runEnded r pause =>
    cases p with
    | running k =>
      cases List.mem_singleton.mp h
      rfl
    | _ => cases h
  | _ => cases h

theorem not_began_of_reached {q : Phase} {mark : Mark} (idle : q.isRunning = false)
    (h : mark ∈ reached q) : mark.isBegan = false := by
  cases q with
  | running k => cases idle
  | returned =>
    cases List.mem_singleton.mp h
    rfl
  | _ => cases h

theorem begun_marks {p q : Phase} {e : Event} (idle : q.isRunning = false) :
    begun ((marks p e q).map (t, ·)) = 0 := by
  rw [begun, List.countP_eq_zero]
  intro entry member
  obtain ⟨mark, left, rfl⟩ := List.mem_map.mp member
  obtain before | after := List.mem_append.mp left
  · exact Bool.eq_false_iff.mp (not_began_of_left before)
  · exact Bool.eq_false_iff.mp (not_began_of_reached idle after)

structure Supervision (gate : GateFate) (t₀ : Nat) (shutdownAt : Option Nat)
    (m : Timed.Moment Watch) : Prop where
  starts : m.state.log.head? = some (t₀, .started)
  follows : m.state.log.IsChain (Next gate t₀ shutdownAt)
  /-- A run begins behind the open gate, not after shutdown, and when every earlier one
  has ended. -/
  runs : ∀ i t k, m.state.log[i]? = some (t, .began k) → (∃ o, gate = .opens o ∧ o ≤ t) ∧
    (∀ f ∈ shutdownAt, t ≤ f) ∧ begun (m.state.log.take i) = ended (m.state.log.take i)
  noneAfter : m.state.down = true → ∀ t turn m', (timed gate shutdownAt).tick? m t turn = some m' →
    begun m'.state.log = begun m.state.log
  /-- A run that fails is numbered by how many have failed until then, as a word of 32 bits. -/
  numbered : ∀ i t r k, m.state.log[i]? = some (t, .ended r k) →
    k = UInt32.ofNat (failed (m.state.log.take i) + if r = .ok then 0 else 1)
  /-- After the last failure it does not wait longer than the pause, nor once shutdown has fired. -/
  waits : ∀ t r k, m.state.log.getLast? = some (t, .ended r k) →
    (∃ pause, Restart k pause ∧ m.now ≤ t + pause) ∧ ∀ f ∈ shutdownAt, m.now ≤ max t f
  ends : ∀ k r pause t, m.state.phase = .running k →
    shortestPause (k + 1) ≤ pause → pause ≤ longestPause (k + 1) →
    (timed gate shutdownAt).MayWait m t →
      ((timed gate shutdownAt).tick? m t (.loop (.runEnded r pause))).isSome = true
  /-- It returns for a cause. When there is one no time passes before it does. -/
  returns : m.state.phase = .returned → Cause gate shutdownAt m
  returned : ∀ t, m.now < t → (timed gate shutdownAt).MayWait m t →
    (m.state.phase = .returned ↔ Cause gate shutdownAt m)
  goesOn : m.state.phase ≠ .returned →
    (∃ t, m.now < t ∧ (timed gate shutdownAt).MayWait m t) ∨
      ∃ turn, ((timed gate shutdownAt).tick? m m.now turn).isSome = true
  /-- After shutdown, without a run, the second event at the latest makes it return. -/
  prompt : m.state.down = true → m.state.phase.isRunning = false → ∀ t₁ turn₁ m₁ t₂ turn₂ m₂,
    (timed gate shutdownAt).tick? m t₁ turn₁ = some m₁ →
    (timed gate shutdownAt).tick? m₁ t₂ turn₂ = some m₂ → m₂.state.phase = .returned
  stays : m.state.phase = .returned →
    ∀ t e, (timed gate shutdownAt).tick? m t (.loop e) = none

theorem down_of_tick {turn : Closable.Turn Event} {m' : Timed.Moment Watch}
    (down : m.state.down = true) (tick : (timed gate shutdownAt).tick? m t turn = some m') :
    m'.state.down = true ∧ begun m'.state.log = begun m.state.log ∧
      (m.state.phase.isRunning = false → m'.state.phase = .returned ∨
        (∃ k, m'.state.phase = .checking k) ∧ ∀ k, m.state.phase ≠ .checking k) := by
  cases (Closable.follows_of_tick tick).2 with
  | shutdown up => cases down.symm.trans up
  | loop stepped =>
    obtain ⟨allowed, moved⟩ := Option.ite_none_right_eq_some.mp stepped
    obtain ⟨q, step, eq⟩ := Option.map_eq_some_iff.mp moved
    cases eq
    rw [down] at step
    refine ⟨down, ?_, leads_down (step_eq_some_iff.mp step)⟩
    rw [begun, log_after, List.countP_append]
    exact congrArg (begun m.state.log + ·) (begun_marks (not_isRunning_of_shutdown step))

theorem tick_of_returned (phase : m.state.phase = .returned) (t : Nat) (e : Event) :
    (timed gate shutdownAt).tick? m t (.loop e) = none := by
  rw [Option.eq_none_iff_forall_ne_some]
  intro m' tick
  cases (Closable.follows_of_tick tick).2 with
  | loop stepped =>
    obtain ⟨-, moved⟩ := Option.ite_none_right_eq_some.mp stepped
    obtain ⟨q, step, -⟩ := Option.map_eq_some_iff.mp moved
    rw [phase] at step
    cases e <;> cases step

theorem Steady.waits_pause (h : Steady gate t₀ shutdownAt m) (punctual : Punctual shutdownAt m)
    {r : RunEnd} {k : UInt32} (last : m.state.log.getLast? = some (t, .ended r k)) :
    (∃ pause, Restart k pause ∧ m.now ≤ t + pause) ∧ ∀ f ∈ shutdownAt, m.now ≤ max t f := by
  obtain ⟨_, logged, past, stands⟩ := h.last
  cases Option.some.inj (logged.last.symm.trans last)
  have of_pauses {k' : UInt32} {wakeAt : Nat}
      (pauses : Pauses shutdownAt m.now m.state.down (t, .ended r k) k' wakeAt) :
      (∃ pause, Restart k pause ∧ m.now ≤ t + pause) ∧ ∀ f ∈ shutdownAt, m.now ≤ max t f := by
    obtain ⟨r', pause, -, ended, within, rfl, before, fires⟩ := pauses
    cases ended
    refine ⟨⟨pause, within, before⟩, fun f hf => ?_⟩
    obtain down | up := Bool.eq_false_or_eq_true m.state.down
    · exact (Option.mem_unique (fires down) hf).le.trans (Nat.le_max_right t f)
    · exact (punctual.early up f hf).trans (Nat.le_max_right t f)
  cases phase : m.state.phase with
  | gated =>
    rw [phase] at stands
    cases stands.1
  | checking k' =>
    rw [phase] at stands
    obtain ⟨-, opened⟩ | pauses := stands
    · cases opened
    · exact of_pauses pauses
  | running k' =>
    rw [phase] at stands
    cases stands
  | pausing k' wakeAt =>
    rw [phase] at stands
    exact of_pauses stands
  | returned =>
    rw [phase] at stands
    cases stands

theorem Steady.supervision (h : Steady gate t₀ shutdownAt m) (punctual : Punctual shutdownAt m) :
    Supervision gate t₀ shutdownAt m := by
  obtain ⟨last, logged, -, -⟩ := h.last
  refine ⟨logged.head, logged.chain, fun i t k entry => ?_, fun down t turn m' tick => ?_,
    fun i t r k entry => ?_, fun t r k => h.waits_pause punctual,
    fun k r pause t phase low high waits => ?_, h.cause, fun t passes waits => ?_,
    passes_or_goes, fun down idle t₁ turn₁ m₁ t₂ turn₂ m₂ first second => ?_,
    tick_of_returned⟩
  · obtain ⟨opened, early, balance, -⟩ := h.ledger.fits i _ entry
    exact ⟨GateFate.isOpen_iff.mp opened, early, balance⟩
  · exact (down_of_tick down tick).2.1
  · obtain ⟨-, count⟩ := h.ledger.fits i _ entry
    rw [count, countEnd]
    split
    · rfl
    · exact (UInt32.ofNat_add ..).symm
  · have between := And.intro low high
    cases r with
    | ok => exact turn_isSome waits rfl ⟨⟨k, phase⟩, rfl⟩
    | failed | panicked => exact turn_isSome waits rfl ⟨k, phase, between, rfl⟩
  · exact ⟨h.cause, h.returned_of_cause punctual waits passes⟩
  · obtain ⟨down₁, -, leads⟩ := down_of_tick down first
    obtain returned | ⟨⟨k, checking⟩, -⟩ := leads idle
    · cases turn₂ with
      | shutdown =>
        cases (Closable.follows_of_tick second).2 with
        | shutdown up => cases down₁.symm.trans up
      | loop e => cases (tick_of_returned returned t₂ e).symm.trans second
    · obtain returned | ⟨-, other⟩ := (down_of_tick down₁ second).2.2 (by rw [checking]; rfl)
      · exact returned
      · exact absurd checking (other k)

/-- However runs end and whenever, whatever becomes of the gate and whenever shutdown fires: a
supervisor starts no run before the gate has opened, none after shutdown and never two at once, and
a run that has failed is started anew after the pause for its number. It returns just if a run has
ended well, the gate was dropped, or shutdown has fired while no run is under way; no number of
failures makes it return. -/
theorem supervises_until_shutdown (gate : GateFate) (t₀ : Nat) (shutdownAt : Option Nat)
    {turns : List (Nat × Closable.Turn Event)}
    (run : (timed gate shutdownAt).run? (start shutdownAt t₀) turns = some m) :
    Supervision gate t₀ shutdownAt m := by
  obtain ⟨steady, punctual⟩ := Closable.run?_induction (P := Steady gate t₀ shutdownAt)
    (fun _ _ h => h.shutdown) (fun _ _ _ _ _ h punctual waits => h.step punctual waits)
    Steady.start (.start _ _ _) run
  exact steady.supervision punctual

def threeFailures : List (Nat × Closable.Turn Event) :=
  let ms (n : Nat) : Nat := n * 1000000
  [(ms 2000, .loop .gateOpened), (ms 2000, .loop .go),
    (ms 3000, .loop (.runEnded .failed (.ofMillis 700))), (ms 3700, .loop .wake),
    (ms 3700, .loop .go), (ms 5000, .loop (.runEnded .panicked (.ofMillis 1500))),
    (ms 6500, .loop .wake), (ms 6500, .loop .go), (ms 7000, .shutdown),
    (ms 8000, .loop (.runEnded .failed (.ofMillis 3000)))]

theorem threeFailures_supervised :
    let gate := GateFate.opens 2000000000
    ∃ m, (timed gate (some 7000000000)).run? (start (some 7000000000) 0) threeFailures = some m ∧
      m.state.phase = .returned ∧ m.state.log.map (fun e => (e.1 / 1000000, e.2)) =
        [(0, .started), (2000, .opened), (2000, .began 0), (3000, .ended .failed 1),
          (3700, .began 1), (5000, .ended .panicked 2), (6500, .began 2), (8000, .ended .failed 3),
          (8000, .returned)] ∧
      Supervision gate 0 (some 7000000000) m := by
  intro gate
  have ended : ((timed gate (some 7000000000)).run? (start (some 7000000000) 0) threeFailures).map
      (fun m => (m.state.phase, m.state.log.map (fun e => (e.1 / 1000000, e.2)))) =
      some (.returned, [(0, .started), (2000, .opened), (2000, .began 0), (3000, .ended .failed 1),
        (3700, .began 1), (5000, .ended .panicked 2), (6500, .began 2), (8000, .ended .failed 3),
        (8000, .returned)]) := by
    decide +kernel
  obtain ⟨m, run, shape⟩ := Option.map_eq_some_iff.mp ended
  rw [Prod.mk.injEq] at shape
  exact ⟨m, run, shape.1, shape.2, supervises_until_shutdown gate 0 (some 7000000000) run⟩

end Run
end Supervisor
end DelayedJobs
