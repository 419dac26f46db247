import DelayedJobs.Proofs.Cancellation.Observers
import Mathlib.Order.Bounds.Basic
import Mathlib.Order.Nat

/-!
How long a sleep lasts. It is cut short at the earliest instant at which one of the sources of its
signal is cancelled or loses its last handle, if that comes before its end; if it comes just then,
either may win. What happens to other sources makes no difference.
-/

namespace DelayedJobs

abbrev Schedule := List (Nat × SourceEvent)

def SourceEvent.source : SourceEvent → Nat
  | cancel n | drop n => n

namespace CancelSource
variable {s : CancelSource} {n time now : Nat} {event : SourceEvent} {rest : Schedule}

/-- The source with number `n` is cancelled at an instant, or loses the last of its handles then. -/
def FallsAt (s : CancelSource) (n : Nat) (events : Schedule) (time : Nat) : Prop :=
  ∃ before event later, events = before ++ (time, event) :: later ∧
    (event = .cancel n ∨ event = .drop n ∧ before.countP (·.2 = .drop n) + 1 = s.handles)

def Struck (s : CancelSource) (n : Nat) (event : SourceEvent) : Prop :=
  event = .cancel n ∨ event = .drop n ∧ s.handles = 1

def apply (s : CancelSource) (n : Nat) : SourceEvent → CancelSource
  | .cancel k => if k = n then s.cancel else s
  | .drop k => if k = n then s.drop else s

theorem handles_apply :
    (s.apply n event).handles = s.handles - if event = .drop n then 1 else 0 := by
  cases event with
  | cancel k => by_cases here : k = n <;> simp [apply, here, cancel]
  | drop k => by_cases here : k = n <;> simp [apply, here, drop]

theorem fired_apply : (s.apply n event).fired = true ↔ s.fired = true ∨ s.Struck n event := by
  cases event with
  | cancel k => by_cases here : k = n <;> simp [apply, here, cancel, fired, Struck]
  | drop k =>
    by_cases here : k = n
    · have last : s.handles - 1 = 0 ↔ s.handles = 0 ∨ s.handles = 1 := by omega
      simp [apply, here, drop, fired, Struck, last, or_assoc]
    · simp [apply, here, Struck]

theorem fallsAt_nil : ¬ s.FallsAt n [] time := by
  rintro ⟨before, event, later, split, -⟩
  cases before <;> cases split

theorem fallsAt_cons : s.FallsAt n ((now, event) :: rest) time ↔
    time = now ∧ s.Struck n event ∨ (s.apply n event).FallsAt n rest time := by
  have count (before : Schedule) : ((now, event) :: before).countP (·.2 = .drop n) + 1 = s.handles ↔
      before.countP (·.2 = .drop n) + 1 = (s.apply n event).handles := by
    rw [handles_apply, List.countP_cons]
    simp only [decide_eq_true_eq]
    omega
  constructor
  · rintro ⟨before, last, later, split, falls⟩
    cases before with
    | nil =>
      cases split
      exact .inl ⟨rfl, by simpa [Struck, eq_comm] using falls⟩
    | cons first before =>
      cases split
      rw [count] at falls
      exact .inr ⟨before, last, later, rfl, falls⟩
  · rintro (⟨rfl, struck⟩ | ⟨before, last, later, rfl, falls⟩)
    · exact ⟨[], event, rest, rfl, by simpa [Struck, eq_comm] using struck⟩
    · rw [← count] at falls
      exact ⟨(now, event) :: before, last, later, rfl, falls⟩

theorem apply_of_ne (apart : event.source ≠ n) : s.apply n event = s := by
  cases event <;> exact if_neg apart

theorem Struck.source (struck : s.Struck n event) : event.source = n := by
  obtain rfl | ⟨rfl, -⟩ := struck <;> rfl

theorem fallsAt_filter {p : Nat × SourceEvent → Bool} {events : Schedule}
    (keeps : ∀ e, e.2.source = n → p e = true) :
    s.FallsAt n (events.filter p) time ↔ s.FallsAt n events time := by
  induction events generalizing s with
  | nil => rfl
  | cons first rest ih =>
    obtain ⟨now, event⟩ := first
    rw [List.filter_cons, fallsAt_cons]
    split
    next => rw [fallsAt_cons, ih]
    next dropped =>
      have apart : event.source ≠ n := fun here => dropped (keeps (now, event) here)
      rw [apply_of_ne apart, ih]
      exact (or_iff_right fun here => apart here.2.source).symm

end CancelSource

namespace Sources
variable {s other : Sources} {among : List Nat} {event : SourceEvent} {rest : Schedule}
    {time now : Nat}

theorem getElem?_apply (s : Sources) (event : SourceEvent) (n : Nat) :
    (s.apply event).list[n]? = s.list[n]?.map (·.apply n event) := by
  cases event <;> exact List.getElem?_modify ..

def FallsAt (s : Sources) (among : List Nat) (events : Schedule) (time : Nat) : Prop :=
  ∃ n ∈ among, ∃ source ∈ s.list[n]?, source.FallsAt n events time

def Struck (s : Sources) (among : List Nat) (event : SourceEvent) : Prop :=
  ∃ n ∈ among, ∃ source ∈ s.list[n]?, source.Struck n event

def Down (s : Sources) (among : List Nat) : Prop :=
  ∃ n ∈ among, ∃ source ∈ s.list[n]?, source.cancelled = true ∨ source.handles = 0

theorem fallsAt_cons : s.FallsAt among ((now, event) :: rest) time ↔
    time = now ∧ s.Struck among event ∨ (s.apply event).FallsAt among rest time := by
  have member (n : Nat) : (∃ t ∈ s.list[n]?, t.FallsAt n ((now, event) :: rest) time) ↔
      time = now ∧ (∃ t ∈ s.list[n]?, t.Struck n event) ∨
        ∃ t ∈ (s.apply event).list[n]?, t.FallsAt n rest time := by
    rw [getElem?_apply]
    cases s.list[n]? with
    | none => simp
    | some source => simpa using source.fallsAt_cons
  simp only [FallsAt, Struck, member, and_or_left, exists_or]
  refine or_congr ?_ Iff.rfl
  simp only [and_left_comm (b := time = now), exists_and_left]

theorem not_fallsAt_nil : ¬ s.FallsAt among [] time := by
  rintro ⟨n, -, source, -, falls⟩
  exact source.fallsAt_nil falls

theorem exists_of_fallsAt {events : Schedule} (falls : s.FallsAt among events time) :
    ∃ event, (time, event) ∈ events := by
  obtain ⟨n, -, source, -, before, event, later, rfl, -⟩ := falls
  exact ⟨event, by simp⟩

/-- These sources are the same in two states, and the same happens to them. -/
structure SameView (s other : Sources) (among : List Nat) (events others : Schedule) : Prop where
  sources : ∀ n ∈ among, s.list[n]? = other.list[n]?
  events : events.filter (fun e => decide (e.2.source ∈ among)) =
    others.filter fun e => decide (e.2.source ∈ among)

theorem SameView.fallsAt {events others : Schedule} (h : s.SameView other among events others) :
    s.FallsAt among events time ↔ other.FallsAt among others time := by
  refine exists_congr fun n => and_congr_right fun watched => ?_
  have keeps (e : Nat × SourceEvent) (here : e.2.source = n) : decide (e.2.source ∈ among) = true :=
    decide_eq_true (here ▸ watched)
  rw [h.sources n watched]
  refine exists_congr fun source => and_congr_right fun _ => ?_
  rw [← source.fallsAt_filter keeps, h.events, source.fallsAt_filter keeps]

theorem SameView.down {events others : Schedule} (h : s.SameView other among events others) :
    s.Down among ↔ other.Down among :=
  exists_congr fun n => and_congr_right fun watched => by rw [h.sources n watched]

end Sources

namespace Signal
variable {g : Signal} {sources : Sources} {event : SourceEvent} {time now : Nat}

theorem isCancelled_iff : g.isCancelled sources = true ↔ sources.Down g.watched := by
  simp [Sources.Down, isCancelled, Sources.fired, CancelSource.fired, Option.any_eq_true]

theorem isCancelled_apply : g.isCancelled (sources.apply event) = true ↔
    g.isCancelled sources = true ∨ sources.Struck g.watched event := by
  simp only [isCancelled, List.any_eq_true, Sources.fired, Option.any_eq_true, Sources.Struck,
    ← exists_or, ← and_or_left, Sources.getElem?_apply, Option.mem_def]
  refine exists_congr fun n => and_congr_right fun _ => ?_
  cases sources.list[n]? with
  | none => simp
  | some s => simpa using s.fired_apply

theorem race_of_isCancelled {length : Nat} {timerFirst : Bool} (events : Schedule)
    (down : g.isCancelled sources = true) :
    g.race length timerFirst sources now events = (false, now) := by
  cases events <;> rw [race, isAwaited_eq, if_pos down]

/-- How a race against a timer that runs for `length` ends, if the sources fall at
these instants. -/
structure RaceEnds (falls : Set Nat) (length : Nat) (timerFirst : Bool) (result : Bool × Nat) :
    Prop where
  cut : ∀ c, IsLeast falls c → c < length → result = (false, c)
  full : (∀ c ∈ falls, length < c) → result = (true, length)
  tie : IsLeast falls length → result = (timerFirst, length)

section RaceEnds
variable {falls : Set Nat} {length : Nat} {timerFirst : Bool} {result : Bool × Nat}

theorem RaceEnds.timer (early : ∀ c ∈ falls, length ≤ c)
    (won : length ∈ falls → timerFirst = true) :
    RaceEnds falls length timerFirst (true, length) where
  cut c least sooner := absurd (early c least.1) (Nat.not_le.mpr sooner)
  full _ := rfl
  tie least := by rw [won least.1]

theorem RaceEnds.fall (least : IsLeast falls time) (inTime : time ≤ length)
    (lost : time = length → timerFirst = false) :
    RaceEnds falls length timerFirst (false, time) where
  cut c other _ := by rw [other.unique least]
  full late := absurd (late time least.1) (Nat.not_lt.mpr inTime)
  tie other := by rw [lost (least.unique other), least.unique other]

theorem RaceEnds.unique {other : Bool × Nat} (h : RaceEnds falls length timerFirst result)
    (h' : RaceEnds falls length timerFirst other) : result = other := by
  by_cases late : ∀ c ∈ falls, length < c
  · exact (h.full late).trans (h'.full late).symm
  · push Not at late
    obtain ⟨c, falls_at, inTime⟩ := late
    obtain ⟨least, isLeast⟩ : ∃ least, IsLeast falls least := by
      classical exact ⟨_, Set.Nonempty.isLeast_natFind ⟨c, falls_at⟩⟩
    obtain sooner | rfl := ((isLeast.2 falls_at).trans inTime).lt_or_eq
    · exact (h.cut least isLeast sooner).trans (h'.cut least isLeast sooner).symm
    · exact (h.tie isLeast).trans (h'.tie isLeast).symm

theorem race_ends {events : Schedule} {now : Nat} (up : ¬ g.isCancelled sources = true)
    (sorted : events.Pairwise fun a b => a.1 ≤ b.1) :
    RaceEnds {t | sources.FallsAt g.watched events t} length timerFirst
      (g.race length timerFirst sources now events) := by
  induction events generalizing sources now with
  | nil =>
    rw [race, isAwaited_eq, if_neg up]
    exact .timer (fun c falls => absurd falls Sources.not_fallsAt_nil) fun falls =>
      absurd falls Sources.not_fallsAt_nil
  | cons first rest ih =>
    obtain ⟨now, event⟩ := first
    obtain ⟨next, sorted⟩ := List.pairwise_cons.mp sorted
    have after (c : Nat) (falls : sources.FallsAt g.watched ((now, event) :: rest) c) :
        now ≤ c := by
      obtain ⟨e, member⟩ := Sources.exists_of_fallsAt falls
      obtain same | later := List.mem_cons.mp member
      · cases same
        exact le_rfl
      · exact next _ later
    rw [race, isAwaited_eq, if_neg up]
    split
    next won =>
      refine .timer (fun c falls => ?_) fun falls => ?_
      · have := after c falls
        omega
      · have := after length falls
        exact (won.resolve_left (by omega)).1
    next lost =>
      rw [not_or, not_lt, not_and] at lost
      by_cases down : g.isCancelled (sources.apply event) = true
      · have struck := (isCancelled_apply.mp down).resolve_left up
        rw [race_of_isCancelled rest down]
        refine .fall ⟨Sources.fallsAt_cons.mpr (.inl ⟨rfl, struck⟩), after⟩ lost.1 fun same => ?_
        exact Bool.eq_false_iff.mpr fun first => lost.2 first same.symm
      · have missed : ¬ sources.Struck g.watched event := fun struck =>
          down (isCancelled_apply.mpr (.inr struck))
        simpa only [Sources.fallsAt_cons, missed, and_false, false_or] using ih down sorted

end RaceEnds

theorem sleep_of_down {length : Nat} {timerFirst : Bool} {events : Schedule}
    (down : sources.Down g.watched) : g.sleep length timerFirst sources events = (false, 0) :=
  if_pos (isCancelled_iff.mpr down)

theorem sleep_ends {length : Nat} {timerFirst : Bool} {events : Schedule}
    (up : ¬ sources.Down g.watched) (sorted : events.Pairwise fun a b => a.1 ≤ b.1) :
    RaceEnds {t | sources.FallsAt g.watched events t} length timerFirst
      (g.sleep length timerFirst sources events) := by
  rw [← isCancelled_iff] at up
  rw [sleep, if_neg up]
  exact race_ends up sorted

end Signal

namespace Cancellation
open Signal (RaceEnds)

/-- A sleep on a signal that is down ends at once. Any other is cut short exactly when the first of
the sources that it was joined from falls before its end, and lasts its full length if that comes
later or never; when it comes at the end, the sleep ends then and either may win. Only what happens
to its own sources counts. -/
theorem sleep_ends_with_fall (o : Origin) (length : Nat) (timerFirst : Bool) (sources : Sources)
    {events : Schedule} (sorted : events.Pairwise fun a b => a.1 ≤ b.1) :
    let result := o.signal.sleep length timerFirst sources events
    (sources.Down o.sources → result = (false, 0)) ∧
    (¬ sources.Down o.sources →
      RaceEnds {t | sources.FallsAt o.sources events t} length timerFirst result) ∧
    ∀ (other : Sources) (others : Schedule), (others.Pairwise fun a b => a.1 ≤ b.1) →
      sources.SameView other o.sources events others →
        o.signal.sleep length timerFirst other others = result := by
  rw [← o.watched_signal]
  refine ⟨Signal.sleep_of_down, fun up => Signal.sleep_ends up sorted,
    fun other others sorted' view => ?_⟩
  by_cases down : sources.Down o.signal.watched
  · rw [Signal.sleep_of_down down, Signal.sleep_of_down (view.down.mp down)]
  · have ends : RaceEnds {t | other.FallsAt o.signal.watched others t} length timerFirst
        (o.signal.sleep length timerFirst other others) :=
      Signal.sleep_ends (mt view.down.mpr down) sorted'
    simp only [← view.fallsAt] at ends
    exact ends.unique (Signal.sleep_ends down sorted)

def lastDrop : Schedule := [(1, .cancel 2), (3, .drop 1), (7, .drop 1), (8, .cancel 0)]

theorem lastDrop_cuts :
    let o : Origin := .join (.source 0) (.join .never (.source 1))
    let sources : Sources := ⟨[{}, { handles := 2 }, {}]⟩
    let falls := {t | sources.FallsAt o.sources lastDrop t}
    RaceEnds falls 10 false (false, 7) ∧ RaceEnds falls 7 true (true, 7) ∧
      RaceEnds falls 7 false (false, 7) ∧ RaceEnds falls 5 false (true, 5) ∧
      o.signal.sleep 10 false ⟨[{}, { handles := 2 }]⟩ lastDrop.tail = (false, 7) ∧
      o.signal.sleep 0 true ⟨[{}, { handles := 0 }]⟩ lastDrop = (false, 0) := by
  intro o sources falls
  have sorted : lastDrop.Pairwise fun a b => a.1 ≤ b.1 := by decide
  have up : ¬ sources.Down o.sources := by
    rw [← o.watched_signal, ← Signal.isCancelled_iff]
    decide
  have gone : Sources.Down ⟨[{}, { handles := 0 }]⟩ o.sources := by
    rw [← o.watched_signal, ← Signal.isCancelled_iff]
    decide
  have ends (length : Nat) (timerFirst : Bool) :
      RaceEnds falls length timerFirst (o.signal.sleep length timerFirst sources lastDrop) :=
    (sleep_ends_with_fall o length timerFirst sources sorted).2.1 up
  have view : sources.SameView ⟨[{}, { handles := 2 }]⟩ o.sources lastDrop lastDrop.tail :=
    ⟨by decide, by decide⟩
  exact ⟨ends 10 false, ends 7 true, ends 7 false, ends 5 false,
    (sleep_ends_with_fall o 10 false sources sorted).2.2 _ _ sorted.tail view,
    (sleep_ends_with_fall o 0 true _ sorted).1 gone⟩

end Cancellation
end DelayedJobs
