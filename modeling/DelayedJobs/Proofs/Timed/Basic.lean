import Mathlib.Data.List.Chain

/-!
Systems whose events happen at instants. Time passes between two events, up to the nearest of the
instants by which something has to happen; many events may happen at one instant, in any order.
-/

namespace DelayedJobs

/-- What an event makes of a state at an instant, and the instants by which a state is left. -/
structure Timed (State Event : Type) where
  step : Nat → State → Event → Option State
  deadlines : State → List Nat

namespace Timed

structure Moment (State : Type) where
  now : Nat
  state : State

variable {State Event : Type} (sys : Timed State Event)

/-- Whether time may pass until `t`. Where a deadline is over it stands still. -/
def MayWait (m : Moment State) (t : Nat) : Prop :=
  m.now ≤ t ∧ ∀ d ∈ sys.deadlines m.state, t ≤ max d m.now

instance (m : Moment State) (t : Nat) : Decidable (sys.MayWait m t) :=
  inferInstanceAs (Decidable (_ ∧ _))

def tick? (m : Moment State) (t : Nat) (e : Event) : Option (Moment State) :=
  if sys.MayWait m t then (sys.step t m.state e).map (Moment.mk t) else none

def run? (m : Moment State) : List (Nat × Event) → Option (Moment State)
  | [] => some m
  | (t, e) :: events => (sys.tick? m t e).bind (run? · events)

variable {sys} {m m' : Moment State}

theorem tick?_eq_some_iff {t : Nat} {e : Event} : sys.tick? m t e = some m' ↔
    sys.MayWait m t ∧ ∃ q, sys.step t m.state e = some q ∧ ⟨t, q⟩ = m' := by
  rw [tick?]
  split
  next waits => rw [Option.map_eq_some_iff, and_iff_right waits]
  next stuck => exact iff_of_false nofun fun h => stuck h.1

theorem isSome_tick?_iff {t : Nat} {e : Event} : (sys.tick? m t e).isSome = true ↔
    sys.MayWait m t ∧ (sys.step t m.state e).isSome = true := by
  rw [tick?]
  split
  next waits => rw [Option.isSome_map, and_iff_right waits]
  next stuck => exact iff_of_false nofun fun h => stuck h.1

theorem mayWait_now (sys : Timed State Event) (m : Moment State) : sys.MayWait m m.now :=
  ⟨le_rfl, fun _ _ => Nat.le_max_right _ _⟩

theorem passes_or_due (sys : Timed State Event) (m : Moment State) :
    (∃ t, m.now < t ∧ sys.MayWait m t) ∨ ∃ d ∈ sys.deadlines m.state, d ≤ m.now := by
  by_cases due : ∃ d ∈ sys.deadlines m.state, d ≤ m.now
  · exact .inr due
  · refine .inl ⟨m.now + 1, Nat.lt_succ_self _, Nat.le_succ _, fun d hd => ?_⟩
    have later : m.now < d := not_le.mp fun h => due ⟨d, hd, h⟩
    exact later.trans_le (Nat.le_max_left _ _)

/-- What every event keeps a whole run keeps; `P` may speak of the number of events so far. -/
theorem run?_induction {P : Nat → Moment State → Prop}
    (kept : ∀ n m t e m', P n m → sys.tick? m t e = some m' → P (n + 1) m')
    {n : Nat} {events : List (Nat × Event)} (start : P n m) (run : sys.run? m events = some m') :
    P (n + events.length) m' := by
  induction events generalizing n m with
  | nil =>
    cases run
    exact start
  | cons event events ih =>
    obtain ⟨next, tick, rest⟩ := Option.bind_eq_some_iff.mp run
    have later := ih (kept n m event.1 event.2 next start tick) rest
    rwa [List.length_cons, Nat.add_comm events.length, ← Nat.add_assoc]

end Timed

def Fits {α : Type} (P : List α → α → Prop) (log : List α) : Prop :=
  ∀ i a, log[i]? = some a → P (log.take i) a

theorem Fits.nil {α : Type} {P : List α → α → Prop} : Fits P [] := fun _ _ h => by simp at h

theorem Fits.append {α : Type} {P : List α → α → Prop} {log : List α} {a : α} (h : Fits P log)
    (next : P log a) : Fits P (log ++ [a]) := by
  intro i b hb
  obtain inside | last := Nat.lt_or_ge i log.length
  · rw [List.getElem?_append_left inside] at hb
    rw [List.take_append_of_le_length inside.le]
    exact h i b hb
  · rw [List.getElem?_append_right last, List.getElem?_singleton,
      Option.ite_none_right_eq_some] at hb
    obtain ⟨zero, eq⟩ := hb
    cases eq
    rwa [show i = log.length by omega, List.take_left]

/-- A log from its first to its last entry, each allowed by the one before. -/
structure Logged {α : Type} (R : α → α → Prop) (first : α) (log : List α) (last : α) : Prop where
  head : log.head? = some first
  chain : log.IsChain R
  last : log.getLast? = some last

namespace Logged
variable {α : Type} {R : α → α → Prop} {first last a : α} {log : List α}

theorem singleton (a : α) : Logged R a [a] a := ⟨rfl, List.isChain_singleton a, rfl⟩

theorem append (h : Logged R first log last) (next : R last a) :
    Logged R first (log ++ [a]) a where
  head := by rw [List.head?_append, h.head, Option.some_or]
  chain := by
    refine List.isChain_append.mpr ⟨h.chain, List.isChain_singleton a, ?_⟩
    intro x hx y hy
    rw [h.last, Option.mem_some_iff] at hx
    rw [List.head?_cons, Option.mem_some_iff] at hy
    exact hx ▸ hy ▸ next
  last := List.getLast?_concat

theorem mem (h : Logged R first log last) : last ∈ log := List.mem_of_getLast? h.last

end Logged
end DelayedJobs
