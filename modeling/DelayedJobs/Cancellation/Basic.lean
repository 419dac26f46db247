/-!
Cancellation. A source is cancelled through any of its handles, and losing the last handle counts
as cancelling it. A signal watches any number of sources and fires as soon as one of them has fired.
-/

namespace DelayedJobs

structure CancelSource where
  cancelled : Bool := false
  handles : Nat := 1
deriving DecidableEq

inductive SourceEnd where
  | cancelled
  | abandoned
deriving DecidableEq

structure Sources where
  list : List CancelSource := []
deriving DecidableEq

structure Signal where
  watched : List Nat
deriving DecidableEq

namespace CancelSource

def fired (s : CancelSource) : Bool := s.cancelled || s.handles == 0

/-- How a wait for the source ends, if it has to wait no longer. -/
def end? (s : CancelSource) : Option SourceEnd :=
  if s.cancelled then some .cancelled
  else if s.handles = 0 then some .abandoned
  else none

def cancel (s : CancelSource) : CancelSource := { s with cancelled := true }
def clone (s : CancelSource) : CancelSource := { s with handles := s.handles + 1 }
def drop (s : CancelSource) : CancelSource := { s with handles := s.handles - 1 }

end CancelSource

namespace Sources

/-- Adds a source with one handle; its number is the old size. -/
def make (s : Sources) : Sources := ⟨s.list ++ [({} : CancelSource)]⟩

def size (s : Sources) : Nat := s.list.length

def cancel (s : Sources) (n : Nat) : Sources := ⟨s.list.modify n CancelSource.cancel⟩
def clone (s : Sources) (n : Nat) : Sources := ⟨s.list.modify n CancelSource.clone⟩
def drop (s : Sources) (n : Nat) : Sources := ⟨s.list.modify n CancelSource.drop⟩

def isCancelled (s : Sources) (n : Nat) : Bool := (s.list[n]?).any (·.cancelled)

def fired (s : Sources) (n : Nat) : Bool := (s.list[n]?).any (·.fired)

def end? (s : Sources) (n : Nat) : Option SourceEnd := (s.list[n]?).bind (·.end?)

def firstEnd? (waits : List (Option SourceEnd)) (_ : waits ≠ []) : Option SourceEnd :=
  waits.findSome? id

end Sources

namespace Signal

def never : Signal := ⟨[]⟩

def ofSource (n : Nat) : Signal := ⟨[n]⟩

def join (a b : Signal) : Signal := ⟨a.watched ++ b.watched⟩

def isCancelled (s : Signal) (sources : Sources) : Bool := s.watched.any sources.fired

/-- Whether a wait for the signal is over. It waits for all its sources at once, and without any it
never ends. -/
def isAwaited (s : Signal) (sources : Sources) : Bool :=
  if h : s.watched = [] then false
  else (Sources.firstEnd? (s.watched.map sources.end?) (by simpa using h)).isSome

end Signal

inductive SourceEvent where
  | cancel (source : Nat)
  | drop (source : Nat)
deriving DecidableEq

namespace Sources

def apply (s : Sources) : SourceEvent → Sources
  | .cancel n => s.cancel n
  | .drop n => s.drop n

end Sources

namespace Signal

/-- A wait for the signal against a timer that runs for `length`, while the events happen at their
times, in their order. Says whether the timer won, and when the race was over. When both come to
their end at the same instant, `timerFirst` says which of them is looked at first. -/
def race (signal : Signal) (length : Nat) (timerFirst : Bool) :
    Sources → Nat → List (Nat × SourceEvent) → Bool × Nat
  | sources, now, [] => if signal.isAwaited sources then (false, now) else (true, length)
  | sources, now, (time, event) :: rest =>
    if signal.isAwaited sources then (false, now)
    else if length < time ∨ timerFirst ∧ length = time then (true, length)
    else race signal length timerFirst (sources.apply event) time rest

/-- Sleeps for `length`, while the events happen at their times after the call. Says whether the
sleep ran its full length, and how long it took. -/
def sleep (signal : Signal) (length : Nat) (timerFirst : Bool) (sources : Sources)
    (events : List (Nat × SourceEvent)) : Bool × Nat :=
  if signal.isCancelled sources then (false, 0) else signal.race length timerFirst sources 0 events

end Signal
end DelayedJobs
