import DelayedJobs.Cancellation.Basic

/-!
Programs on named handles and signals: every way to make, join, cancel and drop them, and sleeps
on a signal during which a source may be cancelled or dropped.
-/

namespace DelayedJobs.Cancellation

inductive HandleEvent where
  | cancel (name : String)
  | drop (name : String)
deriving DecidableEq

inductive Step where
  | source (name : String)
  | clone (name of_ : String)
  | signal (name of_ : String)
  | never (name : String)
  | copy (name of_ : String)
  | join (name left right : String)
  | cancel (name : String)
  | drop (name : String)
  /-- A sleep on a signal during which something may happen to a handle. -/
  | sleep (name : String) (length : Nat) (during : Option (Nat × HandleEvent))
deriving DecidableEq

structure State where
  sources : Sources := {}
  handles : List (String × Nat) := []
  signals : List (String × Signal) := []

namespace State

def dropHandle (s : State) (name : String) : State :=
  match s.handles.lookup name with
  | some n =>
    { s with
      sources := s.sources.drop n
      handles := s.handles.filter fun h => h.1 != name }
  | none => s

def bindHandle (s : State) (name : String) (n : Nat) : State :=
  let s := s.dropHandle name
  { s with handles := s.handles ++ [(name, n)] }

def bindSignal (s : State) (name : String) (signal : Signal) : State :=
  { s with signals := s.signals.filter (fun g => g.1 != name) ++ [(name, signal)] }

def cancelHandle (s : State) (name : String) : State :=
  match s.handles.lookup name with
  | some n => { s with sources := s.sources.cancel n }
  | none => s

def withSignal (s : State) (name : String) (k : Signal → State) : State :=
  (s.signals.lookup name).elim s k

def withHandle (s : State) (name : String) (k : Nat → State) : State :=
  (s.handles.lookup name).elim s k

def sourceEvent? (s : State) : HandleEvent → Option SourceEvent
  | .cancel name => (s.handles.lookup name).map .cancel
  | .drop name => (s.handles.lookup name).map .drop

def applyEvent (s : State) : HandleEvent → State
  | .cancel name => s.cancelHandle name
  | .drop name => s.dropHandle name

def step (s : State) : Step → State
  | .source name =>
    { s with sources := s.sources.make }.bindHandle name s.sources.size
  | .clone name of_ => s.withHandle of_ fun n =>
    { s with sources := s.sources.clone n }.bindHandle name n
  | .signal name of_ => s.withHandle of_ fun n => s.bindSignal name (.ofSource n)
  | .never name => s.bindSignal name .never
  | .copy name of_ => s.withSignal of_ fun g => s.bindSignal name g
  | .join name left right => s.withSignal left fun a => s.withSignal right fun b =>
    s.bindSignal name (a.join b)
  | .cancel name => s.cancelHandle name
  | .drop name =>
    if (s.handles.lookup name).isSome then s.dropHandle name
    else { s with signals := s.signals.filter fun g => g.1 != name }
  | .sleep _ _ none => s
  | .sleep _ _ (some (_, event)) => s.applyEvent event

/-- How a sleep in this state ends, if the step is one. A signal that fires at its very end cuts it
short. -/
def sleepResult? (s : State) : Step → Option (Bool × Nat)
  | .sleep name length during => (s.signals.lookup name).map fun g =>
    let events := during.toList.filterMap fun (time, event) =>
      (s.sourceEvent? event).map fun e => (time, e)
    g.sleep length false s.sources events
  | _ => none

def handleStates (s : State) : List (String × Bool) :=
  s.handles.map fun (name, n) => (name, s.sources.isCancelled n)

def signalStates (s : State) : List (String × Bool) :=
  s.signals.map fun (name, g) => (name, g.isCancelled s.sources)

def waitStates (s : State) : List (String × Bool) :=
  s.signals.map fun (name, g) => (name, g.isAwaited s.sources)

end State

def run (steps : List Step) : State := steps.foldl State.step {}

end DelayedJobs.Cancellation
