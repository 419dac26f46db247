import DelayedJobs.Proofs.Timed.Basic

/-!
Loops in time that can be shut down. Shutdown fires at a given instant or never, and a loop sees
whether it has fired at each of its steps. What has happened is kept in a log.
-/

namespace DelayedJobs

/-- What an event makes of a phase, and what it leaves in the log; and the instants by which a phase
is left. Both may depend on whether shutdown has fired. -/
structure Closable (Phase Event Mark : Type) where
  step : Bool → Nat → Phase → Event → Option (Phase × List Mark)
  deadlines : Bool → Phase → List Nat

namespace Closable

structure Watch (Phase Mark : Type) where
  phase : Phase
  down : Bool
  log : List (Nat × Mark)

inductive Turn (Event : Type) where
  | shutdown
  | loop (e : Event)

variable {Phase Event Mark : Type} (loop : Closable Phase Event Mark) (shutdownAt : Option Nat)

def timed : Timed (Watch Phase Mark) (Turn Event) where
  step now w
    | .shutdown =>
      if !w.down && shutdownAt.any (· ≤ now) then some { w with down := true } else none
    | .loop e => (loop.step w.down now w.phase e).map fun (q, marks) =>
        { w with phase := q, log := w.log ++ marks.map (now, ·) }
  deadlines w := (if w.down then [] else shutdownAt.toList) ++ loop.deadlines w.down w.phase

def start (phase : Phase) (mark : Mark) (now : Nat) : Timed.Moment (Watch Phase Mark) :=
  ⟨now, phase, shutdownAt.any (· < now), [(now, mark)]⟩

def shut (m : Timed.Moment (Watch Phase Mark)) (t : Nat) : Timed.Moment (Watch Phase Mark) :=
  ⟨t, { m.state with down := true }⟩

def after (m : Timed.Moment (Watch Phase Mark)) (t : Nat) (q : Phase) (marks : List Mark) :
    Timed.Moment (Watch Phase Mark) :=
  ⟨t, q, m.state.down, m.state.log ++ marks.map (t, ·)⟩

structure Punctual (shutdownAt : Option Nat) (m : Timed.Moment (Watch Phase Mark)) : Prop where
  early : m.state.down = false → ∀ f ∈ shutdownAt, m.now ≤ f
  fired : m.state.down = true → ∃ f ∈ shutdownAt, f ≤ m.now

variable {loop shutdownAt} {m m' : Timed.Moment (Watch Phase Mark)} {t : Nat}

@[simp] theorem down_after (q : Phase) (marks : List Mark) :
    (after m t q marks).state.down = m.state.down := rfl

@[simp] theorem log_after (q : Phase) (marks : List Mark) :
    (after m t q marks).state.log = m.state.log ++ marks.map (t, ·) := rfl

theorem Punctual.start (phase : Phase) (mark : Mark) (now : Nat) :
    Punctual shutdownAt (start shutdownAt phase mark now) where
  early up f hf := by
    cases hf
    exact not_lt.mp (of_decide_eq_false up)
  fired down := by
    obtain ⟨f, hf, before⟩ := (Option.any_eq_true _ _).mp down
    exact ⟨f, hf, (of_decide_eq_true before).le⟩

section Waits
variable (waits : (loop.timed shutdownAt).MayWait m t)
include waits

theorem le_of_deadline {d : Nat} (h : d ∈ loop.deadlines m.state.down m.state.phase) :
    t ≤ max d m.now :=
  waits.2 d (List.mem_append_right _ h)

theorem eq_now_of_deadline {d : Nat} (h : d ∈ loop.deadlines m.state.down m.state.phase)
    (passed : d ≤ m.now) : t = m.now := by
  have soon := le_of_deadline waits h
  rw [max_eq_right passed] at soon
  exact le_antisymm soon waits.1

theorem Punctual.inTime (h : Punctual shutdownAt m) (up : m.state.down = false) :
    ∀ f ∈ shutdownAt, t ≤ f := by
  intro f hf
  have soon := waits.2 f
  simp only [timed, up] at soon
  have late := soon (List.mem_append_left _ (Option.mem_toList.mpr hf))
  rwa [max_eq_left (h.early up f hf)] at late

theorem Punctual.after (h : Punctual shutdownAt m) (q : Phase) (marks : List Mark) :
    Punctual shutdownAt (after m t q marks) where
  early up := h.inTime waits up
  fired down := by
    obtain ⟨f, hf, passed⟩ := h.fired down
    exact ⟨f, hf, passed.trans waits.1⟩

theorem isSome_shutdown (up : m.state.down = false) {f : Nat} (hf : f ∈ shutdownAt)
    (passed : f ≤ t) : ((loop.timed shutdownAt).tick? m t .shutdown).isSome = true := by
  have fires : (!m.state.down && shutdownAt.any (· ≤ t)) = true := by
    rw [up, Bool.not_false, Bool.true_and]
    exact (Option.any_eq_true _ _).mpr ⟨f, hf, decide_eq_true passed⟩
  refine Timed.isSome_tick?_iff.mpr ⟨waits, ?_⟩
  simp only [timed, if_pos fires]
  rfl

theorem isSome_loop {e : Event} (able : (loop.step m.state.down t m.state.phase e).isSome = true) :
    ((loop.timed shutdownAt).tick? m t (.loop e)).isSome = true := by
  refine Timed.isSome_tick?_iff.mpr ⟨waits, ?_⟩
  simp only [timed, Option.isSome_map, able]

end Waits

theorem mayWait_up (up : m.state.down = false) (later : m.now ≤ t) (early : ∀ f ∈ shutdownAt, t ≤ f)
    (soon : ∀ d ∈ loop.deadlines false m.state.phase, t ≤ d) :
    (loop.timed shutdownAt).MayWait m t := by
  refine ⟨later, fun d hd => le_trans ?_ (Nat.le_max_left d m.now)⟩
  simp only [timed, up, Bool.false_eq_true, if_false] at hd
  obtain fires | due := List.mem_append.mp hd
  · exact early d (Option.mem_toList.mp fires)
  · exact soon d due

theorem reaches_deadline (punctual : Punctual shutdownAt m) (up : m.state.down = false) {d : Nat}
    (only : loop.deadlines false m.state.phase = [d]) (ahead : m.now ≤ d) :
    ∃ t, (loop.timed shutdownAt).MayWait m t ∧ (t = d ∨ t ∈ shutdownAt) := by
  by_cases fires : ∃ f ∈ shutdownAt, f ≤ d
  · obtain ⟨f, hf, soon⟩ := fires
    refine ⟨f, mayWait_up up (punctual.early up f hf) (fun f' hf' => ?_) ?_, .inr hf⟩
    · exact (Option.mem_unique hf hf').le
    · rw [only]
      exact List.forall_mem_singleton.mpr soon
  · refine ⟨d, mayWait_up up ahead (fun f hf => ?_) ?_, .inl rfl⟩
    · exact (not_le.mp fun soon => fires ⟨f, hf, soon⟩).le
    · rw [only]
      exact List.forall_mem_singleton.mpr le_rfl

inductive Follows (loop : Closable Phase Event Mark) (shutdownAt : Option Nat)
    (m : Timed.Moment (Watch Phase Mark)) (t : Nat) :
    Turn Event → Timed.Moment (Watch Phase Mark) → Prop
  | shutdown {f : Nat} (up : m.state.down = false) (hf : f ∈ shutdownAt) (passed : f ≤ t) :
    Follows loop shutdownAt m t .shutdown (shut m t)
  | loop {e : Event} {q : Phase} {marks : List Mark}
      (step : loop.step m.state.down t m.state.phase e = some (q, marks)) :
    Follows loop shutdownAt m t (.loop e) (after m t q marks)

theorem follows_of_tick {turn : Turn Event}
    (tick : (loop.timed shutdownAt).tick? m t turn = some m') :
    (loop.timed shutdownAt).MayWait m t ∧ Follows loop shutdownAt m t turn m' := by
  obtain ⟨waits, w, stepped, rfl⟩ := Timed.tick?_eq_some_iff.mp tick
  refine ⟨waits, ?_⟩
  cases turn with
  | shutdown =>
    obtain ⟨fires, eq⟩ := Option.ite_none_right_eq_some.mp stepped
    cases eq
    obtain ⟨up, fired⟩ := Bool.and_eq_true_iff.mp fires
    obtain ⟨f, hf, passed⟩ := (Option.any_eq_true _ _).mp fired
    exact .shutdown (Bool.not_eq_true' _ ▸ up) hf (of_decide_eq_true passed)
  | loop e =>
    obtain ⟨⟨q, marks⟩, step, rfl⟩ := Option.map_eq_some_iff.mp stepped
    exact .loop step

/-- What holds at the start, what shutdown keeps and what every step of the loop keeps holds of a
whole run. At the instant at which shutdown fires it cannot have fired late. -/
theorem run?_induction {P : Timed.Moment (Watch Phase Mark) → Prop}
    (shutdown : ∀ m t, P m → (loop.timed shutdownAt).MayWait m t → m.state.down = false →
      t ∈ shutdownAt → P (shut m t))
    (step : ∀ m t e q marks, P m → Punctual shutdownAt m → (loop.timed shutdownAt).MayWait m t →
      loop.step m.state.down t m.state.phase e = some (q, marks) → P (after m t q marks))
    {turns : List (Nat × Turn Event)} (start : P m) (punctual : Punctual shutdownAt m)
    (run : (loop.timed shutdownAt).run? m turns = some m') : P m' ∧ Punctual shutdownAt m' := by
  refine Timed.run?_induction (n := 0) (P := fun _ m => P m ∧ Punctual shutdownAt m)
    (fun _ m t turn m' h tick => ?_) ⟨start, punctual⟩ run
  obtain ⟨waits, follows⟩ := follows_of_tick tick
  cases follows with
  | shutdown up hf passed =>
    have just := le_antisymm passed (h.2.inTime waits up _ hf)
    exact ⟨shutdown m t h.1 waits up (just ▸ hf), nofun, fun _ => ⟨_, hf, passed⟩⟩
  | loop stepped => exact ⟨step m t _ _ _ h.1 h.2 waits stepped, h.2.after waits _ _⟩

end Closable
end DelayedJobs
