import DelayedJobs.Cancellation.Program
import Mathlib.Data.List.Count
import Mathlib.Data.List.Nodup

/-!
What the past of a program says about its handles and signals, the latest step first: the source
that a name stands for, the sources that a signal was built from, which sources were cancelled and
which have lost their last handle. The state keeps numbers of handles instead; it agrees with the
past.
-/

namespace DelayedJobs.Cancellation

/-- How a signal was built. A copy is built as the signal it was copied from. -/
inductive Origin where
  | never
  | source (n : Nat)
  | join (left right : Origin)

namespace Origin

def sources : Origin → List Nat
  | never => []
  | source n => [n]
  | join left right => left.sources ++ right.sources

def signal : Origin → Signal
  | never => .never
  | source n => .ofSource n
  | join left right => left.signal.join right.signal

theorem watched_signal (o : Origin) : o.signal.watched = o.sources := by
  induction o with
  | never | source => rfl
  | join left right first second => rw [signal, Signal.join, first, second, sources]

end Origin

namespace Step

def makesSource : Step → Bool
  | source _ => true
  | _ => false

def cancels? : Step → Option String
  | cancel name | sleep _ _ (some (_, .cancel name)) => some name
  | _ => none

end Step

def made (past : List Step) : Nat := past.countP Step.makesSource

@[simp] theorem made_cons (step : Step) (past : List Step) :
    made (step :: past) = made past + if step.makesSource then 1 else 0 := List.countP_cons

def sourceOf? : List Step → String → Option Nat
  | [], _ => none
  | step :: past, name =>
    let before := sourceOf? past name
    match step with
    | .source new => if new = name then some (made past) else before
    | .clone new of_ => if new = name then (sourceOf? past of_).or before else before
    | .drop old | .sleep _ _ (some (_, .drop old)) => if old = name then none else before
    | _ => before

def originOf? : List Step → String → Option Origin
  | [], _ => none
  | step :: past, name =>
    let before := originOf? past name
    match step with
    | .signal new of_ =>
      if new = name then ((sourceOf? past of_).map .source).or before else before
    | .never new => if new = name then some .never else before
    | .copy new of_ => if new = name then (originOf? past of_).or before else before
    | .join new left right =>
      if new = name then
        ((originOf? past left).bind fun a => (originOf? past right).map a.join).or before
      else before
    | .drop old => if old = name ∧ (sourceOf? past old).isNone then none else before
    | _ => before

def Cancelled : List Step → Nat → Prop
  | [], _ => False
  | step :: past, n => Cancelled past n ∨ step.cancels?.bind (sourceOf? past) = some n

def Abandoned (past : List Step) (n : Nat) : Prop :=
  n < made past ∧ ∀ name, sourceOf? past name ≠ some n

def after (past : List Step) : State := past.foldr (fun step s => s.step step) {}

theorem run_eq_after (steps : List Step) : run steps = after steps.reverse :=
  List.foldr_reverse.symm

/-! Tables from names to values. -/

section tables
variable {β : Type} {table : List (String × β)} {name other : String} {b : β}

theorem lookup_filter : (table.filter fun entry => entry.1 != name).lookup other =
    if name = other then none else table.lookup other := by
  induction table with
  | nil => simp
  | cons entry rest ih => grind

theorem lookup_bind : (table.filter (fun entry => entry.1 != name) ++ [(name, b)]).lookup other =
    if name = other then some b else table.lookup other := by
  rw [List.lookup_append, lookup_filter]
  by_cases same : name = other
  · simp [same]
  · have different : (other == name) = false := beq_false_of_ne (Ne.symm same)
    simp [same, List.lookup_cons, different]

theorem perm_of_lookup (names : (table.map Prod.fst).Nodup) (found : table.lookup name = some b) :
    (table.map Prod.snd).Perm (b :: (table.filter fun entry => entry.1 != name).map Prod.snd) := by
  obtain ⟨front, back, rfl, earlier⟩ := List.lookup_eq_some_iff.mp found
  rw [List.map_append, List.map_cons, List.nodup_middle, List.nodup_cons] at names
  have later : ∀ entry ∈ back, entry.1 ≠ name := fun entry member same =>
    names.1 (List.mem_append_right _ (List.mem_map.mpr ⟨entry, member, same⟩))
  have kept : (front ++ (name, b) :: back).filter (fun entry => entry.1 != name) =
      front ++ back := by
    rw [List.filter_append, List.filter_cons_of_neg (by simp), List.filter_eq_self.mpr,
      List.filter_eq_self.mpr]
    · exact fun entry member => by simpa using later entry member
    · exact fun entry member => bne_comm.symm.trans (earlier entry member)
  rw [kept, List.map_append, List.map_append, List.map_cons]
  exact List.perm_middle

theorem mem_snd_iff (names : (table.map Prod.fst).Nodup) :
    b ∈ table.map Prod.snd ↔ ∃ name, table.lookup name = some b := by
  constructor
  · intro member
    obtain ⟨⟨name, b⟩, entry, rfl⟩ := List.mem_map.mp member
    obtain ⟨front, back, rfl⟩ := List.append_of_mem entry
    rw [List.map_append, List.map_cons, List.nodup_middle, List.nodup_cons] at names
    refine ⟨name, List.lookup_eq_some_iff.mpr ⟨front, back, rfl, fun other earlier => ?_⟩⟩
    rw [bne_iff_ne]
    intro same
    exact names.1 (List.mem_append_left _ (List.mem_map.mpr ⟨other, earlier, same.symm⟩))
  · rintro ⟨name, found⟩
    exact (perm_of_lookup names found).mem_iff.mpr List.mem_cons_self

end tables

namespace State

/-- Each source counts the handles that names stand for, and some spare ones without a name. -/
structure Counts (s : State) (spare : List Nat) : Prop where
  names : (s.handles.map Prod.fst).Nodup
  counted : ∀ n source, s.sources.list[n]? = some source →
    source.handles = (s.handles.map Prod.snd).count n + spare.count n
  known : ∀ n ∈ s.handles.map Prod.snd ++ spare, n < s.sources.size

variable {s : State} {spare : List Nat} {n : Nat} {name other : String}

theorem Counts.handle (h : s.Counts spare) (found : s.handles.lookup name = some n) :
    n < s.sources.size :=
  h.known n (List.mem_append_left _ ((mem_snd_iff h.names).mpr ⟨name, found⟩))

theorem Counts.make (h : s.Counts []) : ({ s with sources := s.sources.make } : State).Counts
    [s.sources.size] where
  names := h.names
  counted k source found := by
    have absent : (s.handles.map Prod.snd).count s.sources.size = 0 :=
      List.count_eq_zero.mpr fun member =>
        Nat.lt_irrefl _ (h.known _ (List.mem_append_left _ member))
    rw [Sources.make, List.getElem?_append] at found
    split at found
    next old =>
      have other : s.sources.size ≠ k := Nat.ne_of_gt old
      simpa [other] using h.counted k source found
    next new =>
      obtain ⟨rfl, rfl⟩ : k = s.sources.size ∧ source = {} := by
        simp only [List.getElem?_singleton] at found
        split at found
        · exact ⟨by simp only [Sources.size]; omega, (Option.some.inj found).symm⟩
        · cases found
      simp [absent]
  known k member := by
    simp only [Sources.size, Sources.make, List.length_append, List.length_singleton]
    rcases List.mem_append.mp member with member | member
    · exact Nat.lt_succ_of_lt (h.known k (List.mem_append_left _ member))
    · rw [List.mem_singleton.mp member]
      exact Nat.lt_succ_self _

theorem Counts.clone (h : s.Counts []) (inside : n < s.sources.size) :
    ({ s with sources := s.sources.clone n } : State).Counts [n] where
  names := h.names
  counted k source found := by
    rw [Sources.clone, List.getElem?_modify] at found
    obtain ⟨old, known, rfl⟩ := Option.map_eq_some_iff.mp found
    have count := h.counted k old known
    split
    next same => simp [CancelSource.clone, count, same]
    next other => simpa [other] using count
  known k member := by
    simp only [Sources.size, Sources.clone, List.length_modify]
    rcases List.mem_append.mp member with member | member
    · exact h.known k (List.mem_append_left _ member)
    · rw [List.mem_singleton.mp member]
      exact inside

theorem Counts.cancel (h : s.Counts spare) :
    ({ s with sources := s.sources.cancel n } : State).Counts spare where
  names := h.names
  counted k source found := by
    rw [Sources.cancel, List.getElem?_modify] at found
    obtain ⟨old, known, rfl⟩ := Option.map_eq_some_iff.mp found
    have count := h.counted k old known
    split <;> exact count
  known k member := by
    simpa [Sources.size, Sources.cancel] using h.known k member

theorem Counts.dropHandle (h : s.Counts spare) (name : String) :
    (s.dropHandle name).Counts spare := by
  rw [State.dropHandle]
  split
  next n found =>
    have perm := perm_of_lookup h.names found
    refine ⟨h.names.sublist (List.filter_sublist.map Prod.fst), fun k source known => ?_,
      fun k member => ?_⟩
    · simp only [Sources.drop, List.getElem?_modify] at known
      obtain ⟨old, before, rfl⟩ := Option.map_eq_some_iff.mp known
      have count := h.counted k old before
      rw [perm.count_eq] at count
      split
      next same =>
        subst same
        rw [List.count_cons_self] at count
        simp only [CancelSource.drop, count]
        omega
      next other => simpa [other] using count
    · have size : (s.sources.drop n).size = s.sources.size := by simp [Sources.size, Sources.drop]
      change k < (s.sources.drop n).size
      rw [size]
      refine h.known k (List.mem_append.mpr ((List.mem_append.mp member).imp_left fun kept => ?_))
      exact perm.mem_iff.mpr (List.mem_cons_of_mem n kept)
  next => exact h

theorem Counts.bindHandle (h : s.Counts [n]) (name : String) : (s.bindHandle name n).Counts [] := by
  have free : (s.dropHandle name).handles.lookup name = none := by
    rw [State.dropHandle]
    split
    next => simp [lookup_filter]
    next absent => exact absent
  have dropped := h.dropHandle name
  refine ⟨?_, fun k source found => ?_, fun k member => ?_⟩
  · simp only [State.bindHandle, List.map_append, List.map_cons, List.map_nil]
    refine List.nodup_append.mpr ⟨dropped.names, List.nodup_singleton _, fun a member b last => ?_⟩
    rintro rfl
    obtain rfl := List.mem_singleton.mp last
    obtain ⟨entry, member, same⟩ := List.mem_map.mp member
    have apart := List.lookup_eq_none_iff.mp free entry member
    simp [same] at apart
  · have count := dropped.counted k source found
    simp only [State.bindHandle, List.map_append, List.map_cons, List.map_nil, List.count_append,
      List.count_nil]
    omega
  · refine dropped.known k ?_
    simpa [State.bindHandle] using member

theorem lookup_dropHandle : (s.dropHandle name).handles.lookup other =
    if name = other then none else s.handles.lookup other := by
  rw [State.dropHandle]
  split
  next => exact lookup_filter
  next absent =>
    split
    next same => rw [← same, absent]
    next => rfl

theorem lookup_bindHandle : (s.bindHandle name n).handles.lookup other =
    if name = other then some n else s.handles.lookup other := by
  rw [State.bindHandle, List.lookup_append, lookup_dropHandle]
  by_cases same : name = other
  · simp [same]
  · have different : (other == name) = false := beq_false_of_ne (Ne.symm same)
    simp [same, List.lookup_cons, different]

theorem lookup_bindSignal (g : Signal) : (s.bindSignal name g).signals.lookup other =
    if name = other then some g else s.signals.lookup other := lookup_bind

@[simp] theorem signals_dropHandle : (s.dropHandle name).signals = s.signals := by
  rw [State.dropHandle]
  split <;> rfl

@[simp] theorem signals_bindHandle : (s.bindHandle name n).signals = s.signals := signals_dropHandle

@[simp] theorem size_dropHandle : (s.dropHandle name).sources.size = s.sources.size := by
  rw [State.dropHandle]
  split
  next => simp [Sources.size, Sources.drop]
  next => rfl

@[simp] theorem size_bindHandle : (s.bindHandle name n).sources.size = s.sources.size :=
  size_dropHandle

end State
end DelayedJobs.Cancellation
