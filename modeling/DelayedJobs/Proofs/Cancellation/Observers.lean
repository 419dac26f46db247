import DelayedJobs.Proofs.Cancellation.History
import Mathlib.Data.List.Induction

/-!
What a signal means. Looking at it and waiting for it come to the same: it has fired exactly when
one of the sources that it was built from was cancelled or has lost its last handle. Nothing undoes
that, joins of signals mean the union of their sources, and what is done with signals touches no
source.
-/

namespace DelayedJobs

namespace CancelSource

theorem isSome_end? (s : CancelSource) : s.end?.isSome = s.fired := by
  rw [end?, fired]
  cases s.cancelled <;> by_cases none : s.handles = 0 <;> simp [none]

end CancelSource

namespace Sources
variable {s : Sources} {n k : Nat}

theorem isSome_end? (s : Sources) (n : Nat) : (s.end? n).isSome = s.fired n := by
  rw [end?, fired]
  cases s.list[n]? with
  | none => rfl
  | some source => exact source.isSome_end?

@[simp] theorem size_make (s : Sources) : s.make.size = s.size + 1 := by simp [size, make]

@[simp] theorem size_clone (s : Sources) (n : Nat) : (s.clone n).size = s.size := by
  simp [size, clone]

@[simp] theorem isCancelled_make : s.make.isCancelled k = s.isCancelled k := by
  rw [isCancelled, isCancelled, make, List.getElem?_append]
  split
  next => rfl
  next new =>
    rw [List.getElem?_eq_none (Nat.le_of_not_lt new), List.getElem?_singleton]
    split <;> rfl

@[simp] theorem isCancelled_clone : (s.clone n).isCancelled k = s.isCancelled k := by
  rw [isCancelled, isCancelled, clone, List.getElem?_modify]
  cases s.list[k]? with
  | none => rfl
  | some source => by_cases h : n = k <;> simp [h, CancelSource.clone]

@[simp] theorem isCancelled_drop : (s.drop n).isCancelled k = s.isCancelled k := by
  rw [isCancelled, isCancelled, drop, List.getElem?_modify]
  cases s.list[k]? with
  | none => rfl
  | some source => by_cases h : n = k <;> simp [h, CancelSource.drop]

theorem isCancelled_cancel (inside : n < s.size) :
    (s.cancel n).isCancelled k = true ↔ s.isCancelled k = true ∨ n = k := by
  rw [isCancelled, isCancelled, cancel, List.getElem?_modify]
  by_cases h : n = k
  · subst h
    rw [List.getElem?_eq_getElem inside]
    simp [CancelSource.cancel]
  · cases s.list[k]? <;> simp [h]

end Sources

namespace Signal

theorem isAwaited_eq (g : Signal) (sources : Sources) :
    g.isAwaited sources = g.isCancelled sources := by
  rw [isAwaited, isCancelled]
  split
  next none => rw [none, List.any_nil]
  next some =>
    rw [Sources.firstEnd?, List.findSome?_map, Bool.eq_iff_iff, List.isSome_findSome?,
      List.any_eq_true]
    simp only [List.any_eq_true, Function.comp_apply, id_eq, Sources.isSome_end?]

def Alike (a b : Signal) : Prop :=
  ∀ sources, a.isCancelled sources = b.isCancelled sources ∧
    a.isAwaited sources = b.isAwaited sources

theorem alike_of_sources {a b : Signal} (same : ∀ n, n ∈ a.watched ↔ n ∈ b.watched) :
    a.Alike b := by
  intro sources
  rw [isAwaited_eq, isAwaited_eq, and_self, Bool.eq_iff_iff, isCancelled, isCancelled,
    List.any_eq_true, List.any_eq_true]
  exact exists_congr fun n => and_congr_left' (same n)

end Signal

namespace Cancellation

namespace State
variable {s : State} {name : String} {n k : Nat}

@[simp] theorem isCancelled_dropHandle :
    (s.dropHandle name).sources.isCancelled k = s.sources.isCancelled k := by
  rw [dropHandle]
  split
  next => exact Sources.isCancelled_drop
  next => rfl

@[simp] theorem isCancelled_bindHandle :
    (s.bindHandle name n).sources.isCancelled k = s.sources.isCancelled k := isCancelled_dropHandle

end State

structure Faithful (past : List Step) (s : State) : Prop where
  counts : s.Counts []
  size : s.sources.size = made past
  handles : ∀ name, s.handles.lookup name = sourceOf? past name
  cancelled : ∀ n, s.sources.isCancelled n = true ↔ Cancelled past n
  signals : ∀ name, s.signals.lookup name = (originOf? past name).map Origin.signal

variable {past : List Step} {s : State} {last : Step} {name old : String}

theorem Faithful.cancelled_of_calm (h : Faithful past s) {t : State}
    (looks : ∀ n, t.sources.isCancelled n = s.sources.isCancelled n) (calm : last.cancels? = none)
    (n : Nat) : t.sources.isCancelled n = true ↔ Cancelled (last :: past) n := by
  rw [looks, h.cancelled, Cancelled, calm]
  simp

theorem Faithful.signals_of_same (h : Faithful past s) {t : State} (same : t.signals = s.signals)
    (still : ∀ name, originOf? (last :: past) name = originOf? past name) (name : String) :
    t.signals.lookup name = (originOf? (last :: past) name).map Origin.signal := by
  rw [same, still, h.signals]

theorem Faithful.dropHandle (h : Faithful past s) (made : last.makesSource = false)
    (calm : last.cancels? = none)
    (drops : ∀ name,
      sourceOf? (last :: past) name = if old = name then none else sourceOf? past name)
    (still : ∀ name, originOf? (last :: past) name = originOf? past name) :
    Faithful (last :: past) (s.dropHandle old) where
  counts := h.counts.dropHandle old
  size := by simp [h.size, made]
  handles name := by rw [State.lookup_dropHandle, h.handles, drops]
  cancelled := h.cancelled_of_calm (fun _ => State.isCancelled_dropHandle) calm
  signals := h.signals_of_same State.signals_dropHandle still

theorem Faithful.cancelHandle (h : Faithful past s) (made : last.makesSource = false)
    (cancels : last.cancels? = some old)
    (same : ∀ name, sourceOf? (last :: past) name = sourceOf? past name)
    (still : ∀ name, originOf? (last :: past) name = originOf? past name) :
    Faithful (last :: past) (s.cancelHandle old) := by
  have size : s.sources.size = Cancellation.made (last :: past) := by
    simp [h.size, made]
  have handles (name : String) : s.handles.lookup name = sourceOf? (last :: past) name := by
    rw [h.handles, same]
  rw [State.cancelHandle]
  split
  next n found =>
    have inside := h.counts.handle found
    refine ⟨h.counts.cancel, ?_, handles, fun k => ?_, h.signals_of_same rfl still⟩
    · simpa [Sources.size, Sources.cancel] using size
    · rw [Sources.isCancelled_cancel inside, h.cancelled, Cancelled, cancels, Option.bind_some,
        ← h.handles, found, Option.some.injEq]
  next absent =>
    refine ⟨h.counts, size, handles, fun k => ?_, h.signals_of_same rfl still⟩
    rw [h.cancelled, Cancelled, cancels, Option.bind_some, ← h.handles, absent]
    simp

theorem Faithful.unchanged (h : Faithful past s) (made : last.makesSource = false)
    (calm : last.cancels? = none)
    (same : ∀ name, sourceOf? (last :: past) name = sourceOf? past name)
    (still : ∀ name, originOf? (last :: past) name = originOf? past name) :
    Faithful (last :: past) s where
  counts := h.counts
  size := by simp [h.size, made]
  handles name := by rw [h.handles, same]
  cancelled := h.cancelled_of_calm (fun _ => rfl) calm
  signals := h.signals_of_same rfl still

theorem Faithful.bindSignal (h : Faithful past s) (origin : Origin)
    (made : last.makesSource = false) (calm : last.cancels? = none)
    (same : ∀ name, sourceOf? (last :: past) name = sourceOf? past name)
    (binds : ∀ name, originOf? (last :: past) name =
      if old = name then some origin else originOf? past name) :
    Faithful (last :: past) (s.bindSignal old origin.signal) where
  counts := ⟨h.counts.names, h.counts.counted, h.counts.known⟩
  size := h.size.trans (by simp [made])
  handles name := (h.handles name).trans (same name).symm
  cancelled := h.cancelled_of_calm (fun _ => rfl) calm
  signals name := by
    rw [State.lookup_bindSignal, binds]
    split
    next => rw [Option.map_some]
    next => exact h.signals name

theorem Faithful.dropSignal (h : Faithful past s) (absent : s.handles.lookup old = none) :
    Faithful (.drop old :: past)
      { s with signals := s.signals.filter fun g => g.1 != old } where
  counts := ⟨h.counts.names, h.counts.counted, h.counts.known⟩
  size := h.size
  handles name := by
    rw [sourceOf?, h.handles]
    split
    next same => rw [← same, ← h.handles, absent]
    next => rfl
  cancelled := h.cancelled_of_calm (fun _ => rfl) rfl
  signals name := by
    rw [lookup_filter, originOf?, ← h.handles, absent]
    by_cases same : old = name
    · simp [same]
    · simpa [same] using h.signals name

theorem Faithful.source (h : Faithful past s) (name : String) :
    Faithful (.source name :: past) (s.step (.source name)) where
  counts := h.counts.make.bindHandle name
  size := by simp [State.step, h.size, Step.makesSource]
  handles other := by
    rw [State.step, State.lookup_bindHandle, sourceOf?, h.handles, h.size]
  cancelled := h.cancelled_of_calm (fun _ => by simp [State.step]) rfl
  signals := h.signals_of_same (by simp [State.step]) fun _ => rfl

theorem Faithful.clone (h : Faithful past s) {of_ : String} {n : Nat}
    (found : s.handles.lookup of_ = some n) (name : String) :
    Faithful (.clone name of_ :: past)
      (({ s with sources := s.sources.clone n } : State).bindHandle name n) where
  counts := (h.counts.clone (h.counts.handle found)).bindHandle name
  size := by simp [h.size, Step.makesSource]
  handles other := by
    rw [State.lookup_bindHandle, sourceOf?, ← h.handles of_, found, Option.some_or, h.handles]
  cancelled := h.cancelled_of_calm (fun _ => by simp) rfl
  signals := h.signals_of_same (by simp) fun _ => rfl

theorem Faithful.step (h : Faithful past s) (step : Step) :
    Faithful (step :: past) (s.step step) := by
  cases step with
  | source name => exact h.source name
  | clone name of_ =>
    rw [State.step, State.withHandle]
    cases found : s.handles.lookup of_ with
    | none =>
      refine h.unchanged rfl rfl (fun other => ?_) fun _ => rfl
      rw [sourceOf?, ← h.handles of_, found, Option.none_or, ite_self]
    | some n => exact h.clone found name
  | signal name of_ =>
    rw [State.step, State.withHandle]
    cases found : s.handles.lookup of_ with
    | none =>
      refine h.unchanged rfl rfl (fun _ => rfl) fun other => ?_
      rw [originOf?, ← h.handles of_, found, Option.map_none, Option.none_or, ite_self]
    | some n =>
      refine h.bindSignal (.source n) rfl rfl (fun _ => rfl) fun other => ?_
      rw [originOf?, ← h.handles of_, found, Option.map_some, Option.some_or]
  | never name => exact h.bindSignal .never rfl rfl (fun _ => rfl) fun _ => rfl
  | copy name of_ =>
    rw [State.step, State.withSignal, h.signals]
    cases built : originOf? past of_ with
    | none =>
      refine h.unchanged rfl rfl (fun _ => rfl) fun other => ?_
      rw [originOf?, built, Option.none_or, ite_self]
    | some origin =>
      refine h.bindSignal origin rfl rfl (fun _ => rfl) fun other => ?_
      rw [originOf?, built, Option.some_or]
  | join name left right =>
    rw [State.step, State.withSignal, h.signals]
    cases first : originOf? past left with
    | none =>
      refine h.unchanged rfl rfl (fun _ => rfl) fun other => ?_
      rw [originOf?, first, Option.bind_none, Option.none_or, ite_self]
    | some one =>
      rw [Option.map_some, Option.elim_some, State.withSignal, h.signals]
      cases second : originOf? past right with
      | none =>
        refine h.unchanged rfl rfl (fun _ => rfl) fun other => ?_
        rw [originOf?, first, second, Option.bind_some, Option.map_none, Option.none_or, ite_self]
      | some two =>
        refine h.bindSignal (one.join two) rfl rfl (fun _ => rfl) fun other => ?_
        rw [originOf?, first, second, Option.bind_some, Option.map_some, Option.some_or]
  | cancel name => exact h.cancelHandle rfl rfl (fun _ => rfl) fun _ => rfl
  | drop name =>
    rw [State.step]
    cases found : s.handles.lookup name with
    | none => exact h.dropSignal found
    | some n =>
      refine h.dropHandle rfl rfl (fun _ => rfl) fun other => ?_
      rw [originOf?, ← h.handles name, found]
      simp
  | sleep name length during =>
    match during with
    | none => exact h.unchanged rfl rfl (fun _ => rfl) fun _ => rfl
    | some (_, .cancel _) => exact h.cancelHandle rfl rfl (fun _ => rfl) fun _ => rfl
    | some (_, .drop _) => exact h.dropHandle rfl rfl (fun _ => rfl) fun _ => rfl

theorem faithful_after (past : List Step) : Faithful past (after past) := by
  induction past with
  | nil =>
    refine ⟨⟨List.nodup_nil, nofun, nofun⟩, rfl, fun _ => rfl, fun _ => ?_, fun _ => rfl⟩
    exact iff_of_false Bool.false_ne_true not_false
  | cons step past ih => exact ih.step step

/-- A source has fired if it was cancelled or has lost its last handle. -/
theorem Faithful.fired_iff (h : Faithful past s) (n : Nat) :
    s.sources.fired n = true ↔ Cancelled past n ∨ Abandoned past n := by
  rw [← h.cancelled, Abandoned, ← h.size, Sources.fired, Sources.isCancelled]
  simp only [← h.handles]
  cases found : s.sources.list[n]? with
  | none =>
    have outside : ¬n < s.sources.size := Nat.not_lt.mpr (List.getElem?_eq_none_iff.mp found)
    simp [outside]
  | some source =>
    have inside : n < s.sources.size := (List.getElem?_eq_some_iff.mp found).1
    have count := h.counts.counted n source found
    have unnamed : source.handles = 0 ↔ ∀ name, s.handles.lookup name ≠ some n := by
      rw [count, List.count_nil, Nat.add_zero, List.count_eq_zero, mem_snd_iff h.counts.names,
        not_exists]
    simp [CancelSource.fired, inside, unnamed]

theorem Abandoned.cons {n : Nat} (h : Abandoned past n) (step : Step) :
    Abandoned (step :: past) n := by
  obtain ⟨old, unnamed⟩ := h
  refine ⟨by rw [made_cons]; omega, fun name => ?_⟩
  have before := unnamed name
  have lost (old : String) : (if old = name then none else sourceOf? past name) ≠ some n := by
    split
    · exact nofun
    · exact before
  cases step with
  | source new =>
    rw [sourceOf?]
    split
    · exact fun same => Nat.ne_of_gt old (Option.some.inj same)
    · exact before
  | clone new of_ =>
    rw [sourceOf?]
    split
    · have cloned := unnamed of_
      cases found : sourceOf? past of_ with
      | none => exact before
      | some k => rwa [found] at cloned
    · exact before
  | drop old => exact lost old
  | sleep _ _ during =>
    match during with
    | some (_, .drop old) => exact lost old
    | some (_, .cancel _) | none => exact before
  | signal | never | copy | join | cancel => exact before

theorem fired_append (steps more : List Step) {n : Nat}
    (fired : (run steps).sources.fired n = true) :
    (run (steps ++ more)).sources.fired n = true := by
  induction more using List.reverseRecOn with
  | nil => rwa [List.append_nil]
  | append_singleton more step ih =>
    rw [← List.append_assoc]
    rw [run_eq_after, (faithful_after _).fired_iff] at ih ⊢
    rw [List.reverse_concat]
    exact ih.imp .inl fun abandoned => abandoned.cons step

theorem Faithful.fires (h : Faithful past s) (name : String) :
    Option.Rel (fun (g : Signal) origin => g.isCancelled s.sources = true ↔
      ∃ n ∈ origin.sources, Cancelled past n ∨ Abandoned past n)
      (s.signals.lookup name) (originOf? past name) := by
  rw [h.signals]
  cases originOf? past name with
  | none => exact .none
  | some origin =>
    refine .some ?_
    rw [Signal.isCancelled, List.any_eq_true, origin.watched_signal]
    exact exists_congr fun n => and_congr_right' (h.fired_iff n)

def State.signalOf? (s : State) : Step → Option String
  | .signal name _ | .never name | .copy name _ | .join name _ _ | .sleep name _ none => some name
  | .drop name => if (s.handles.lookup name).isNone then some name else none
  | _ => none

theorem State.step_of_signalOf (s : State) {step : Step} {name : String}
    (about : s.signalOf? step = some name) :
    (s.step step).sources = s.sources ∧ (s.step step).handles = s.handles ∧
      ∀ other ≠ name, (s.step step).signals.lookup other = s.signals.lookup other := by
  have bound (g : Signal) : ∀ other ≠ name,
      (s.bindSignal name g).signals.lookup other = s.signals.lookup other := fun other apart => by
    rw [lookup_bindSignal, if_neg (Ne.symm apart)]
  have unbound (other : String) (_ : other ≠ name) :
      s.signals.lookup other = s.signals.lookup other := rfl
  cases step with
  | signal new of_ =>
    cases about
    rw [State.step, withHandle]
    cases s.handles.lookup of_ with
    | none => exact ⟨rfl, rfl, unbound⟩
    | some n => exact ⟨rfl, rfl, bound _⟩
  | never new =>
    cases about
    exact ⟨rfl, rfl, bound _⟩
  | copy new of_ =>
    cases about
    rw [State.step, withSignal]
    cases s.signals.lookup of_ with
    | none => exact ⟨rfl, rfl, unbound⟩
    | some g => exact ⟨rfl, rfl, bound g⟩
  | join new left right =>
    cases about
    rw [State.step, withSignal]
    cases s.signals.lookup left with
    | none => exact ⟨rfl, rfl, unbound⟩
    | some a =>
      rw [Option.elim_some, withSignal]
      cases s.signals.lookup right with
      | none => exact ⟨rfl, rfl, unbound⟩
      | some b => exact ⟨rfl, rfl, bound _⟩
  | drop old =>
    rw [signalOf?] at about
    obtain ⟨free, same⟩ := Option.ite_none_right_eq_some.mp about
    cases same
    rw [State.step, Option.isNone_iff_eq_none.mp free]
    refine ⟨rfl, rfl, fun other apart => ?_⟩
    exact lookup_filter.trans (if_neg (Ne.symm apart))
  | sleep _ _ during =>
    cases during with
    | none =>
      cases about
      exact ⟨rfl, rfl, unbound⟩
    | some => cases about
  | source | clone | cancel => cases about

/-- After any program a signal has fired exactly when one of the sources that it was built from was
cancelled or has lost its last handle, and then it stays fired. A wait for it is over exactly when
it has fired. Joins are unions of sources, and steps on a signal touch no source and no other
signal. -/
theorem signals_mean_their_sources (steps : List Step) :
    let s := run steps
    let past := steps.reverse
    (∀ name, Option.Rel (fun (g : Signal) origin => g.isCancelled s.sources = true ↔
      ∃ n ∈ origin.sources, Cancelled past n ∨ Abandoned past n)
      (s.signals.lookup name) (originOf? past name)) ∧
    (∀ g : Signal, g.isAwaited s.sources = g.isCancelled s.sources) ∧
    (∀ (g : Signal) (more : List Step),
      (g.isCancelled s.sources = true → g.isCancelled (run (steps ++ more)).sources = true) ∧
      (g.isAwaited s.sources = true → g.isAwaited (run (steps ++ more)).sources = true)) ∧
    (∀ a b c : Signal, (a.join b).Alike (b.join a) ∧
      ((a.join b).join c).Alike (a.join (b.join c)) ∧ (a.join a).Alike a ∧
      (Signal.never.join a).Alike a ∧ (a.join .never).Alike a) ∧
    ∀ step name, s.signalOf? step = some name →
      (s.step step).sources = s.sources ∧ (s.step step).handles = s.handles ∧
        ∀ other ≠ name, (s.step step).signals.lookup other = s.signals.lookup other := by
  intro s past
  have stays (g : Signal) (more : List Step) (fired : g.isCancelled s.sources = true) :
      g.isCancelled (run (steps ++ more)).sources = true := by
    rw [Signal.isCancelled, List.any_eq_true] at fired ⊢
    obtain ⟨n, watched, fired⟩ := fired
    exact ⟨n, watched, fired_append steps more fired⟩
  refine ⟨fun name => ?_, fun g => g.isAwaited_eq _, fun g more => ⟨stays g more, ?_⟩,
    fun a b c => ⟨?_, ?_, ?_, ?_, ?_⟩, fun step name => s.step_of_signalOf⟩
  · have faithful := faithful_after past
    rw [← run_eq_after] at faithful
    exact faithful.fires name
  · rw [Signal.isAwaited_eq, Signal.isAwaited_eq]
    exact stays g more
  · exact Signal.alike_of_sources fun n => by simp [Signal.join, or_comm]
  · exact Signal.alike_of_sources fun n => by simp [Signal.join]
  · exact Signal.alike_of_sources fun n => by simp [Signal.join]
  · exact Signal.alike_of_sources fun n => by simp [Signal.join, Signal.never]
  · exact Signal.alike_of_sources fun n => by simp [Signal.join, Signal.never]

def lastHandleDropped : List Step :=
  [.source "lease", .clone "keeper" "lease", .source "shutdown", .signal "lost" "lease",
    .signal "stopping" "shutdown", .join "either" "lost" "stopping", .copy "handler" "either",
    .drop "lease", .drop "keeper"]

theorem lastHandleDropped_fires :
    let s := run lastHandleDropped
    s.signals.lookup "handler" = some ⟨[0, 1]⟩ ∧
      (Signal.mk [0, 1]).isCancelled s.sources = true ∧
      (Signal.mk [0, 1]).isCancelled (run (lastHandleDropped ++ [.source "lease"])).sources = true ∧
      (s.step (.drop "lost")).sources = s.sources := by
  intro s
  have fired : (Signal.mk [0, 1]).isCancelled s.sources = true := by decide
  obtain ⟨-, -, stays, -, apart⟩ := signals_mean_their_sources lastHandleDropped
  exact ⟨by decide, fired, (stays ⟨[0, 1]⟩ [.source "lease"]).1 fired,
    (apart (.drop "lost") "lost" (by decide)).1⟩

end Cancellation
end DelayedJobs
