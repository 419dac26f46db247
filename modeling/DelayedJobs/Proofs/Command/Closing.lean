import DelayedJobs.Command.Execute

/-!
Which commands close the session that they have opened. The world outside is any state machine, so
that statements, waits and interrupts have every outcome. No call closes a session on its own; a
command closes it at its end, but gives up before that when its order makes no payload, and when a
host cannot prepare its table.
-/

namespace DelayedJobs

namespace Session
variable {World : Type} {serve : Statement → StateM World Reply} {s t : Session} {op : Operation}
  {phase next : Phase}

theorem closed_of_enter? (entered : s.enter? op = some (next, t)) : t.closed = s.closed := by
  rw [enter?] at entered
  split at entered
  next => cases entered; rfl
  next => cases entered
  next =>
    split at entered
    all_goals cases entered; rfl

theorem closed_of_receive? {reply : Reply} (received : s.receive? op phase reply = some (next, t)) :
    t.closed = s.closed := by
  rw [receive?.eq_def] at received
  split at received
  case h_5 =>
    split at received
    next => cases received; rfl
    next => cases received
  all_goals cases received
  all_goals rfl

theorem converse_closed (fuel : Nat) (phase : Phase) (s : Session) (world : World) :
    ((converse serve op fuel phase s).run world).1.2.closed = s.closed := by
  induction fuel generalizing phase s world with
  | zero => rfl
  | succ fuel ih =>
    rw [converse.eq_def]
    dsimp only
    split
    next => rfl
    next =>
      split
      next entered => exact (ih ..).trans (closed_of_enter? entered)
      next => rfl
    next =>
      split
      next => rfl
      next statement inFlight =>
        dsimp only [StateT.run, bind, StateT.bind]
        generalize serve statement world = replied
        obtain ⟨reply, world⟩ := replied
        dsimp only
        cases received : s.receive? op phase reply with
        | none => rfl
        | some later => exact (ih ..).trans (closed_of_receive? received)

/-- No call closes the session it is made on, however it ends. -/
theorem perform_closed (s : Session) (serve : Statement → StateM World Reply) (op : Operation)
    (world : World) : ((s.perform serve op).run world).1.2.closed = s.closed :=
  converse_closed ..

end Session

namespace Command
variable {World : Type} {e : Surroundings (StateM World)} {table : TableSettings}
    {s start : Session}
  {command : Command}

def carryOut (e : Surroundings (StateM World)) (s : Session) :
    Command → StateM World (Outcome × Session)
  | .install => createTable e s
  | .schedule order => placeOrder e s order
  | .run kinds settings => hostJobs e s kinds settings

theorem execute_of_connect (connected : Session.connect table e.refusal = .ok start)
    (world : World) : ((command.execute e table).run world).1 =
      ⟨((command.carryOut e start).run world).1.1,
        some ((command.carryOut e start).run world).1.2⟩ := by
  rw [execute, connected]
  cases command <;> rfl

/-- Whether a command gives up before it comes to close its session: for want of a payload, or of a
table to work on. -/
def GivesUp (e : Surroundings (StateM World)) (start : Session) (world : World) : Command → Prop
  | .install => False
  | .schedule o => ∃ fault, payload o = .error fault
  | .run .. => ∃ cause, ((start.perform e.serve .install).run world).1.1 = .error cause

structure Settles (givesUp : Prop) (result : Outcome × Session) : Prop where
  left : givesUp → result.2.closed = false ∧ ∃ fault, result.1 = .error fault
  closes : ¬ givesUp → result.2.closed = true

theorem placeOrder_settles (opened : s.closed = false) (o : Order) (world : World) :
    Settles (∃ fault, payload o = .error fault) ((placeOrder e s o).run world).1 := by
  cases made : payload o with
  | error fault =>
    have left : ((placeOrder e s o).run world).1 = (.error fault, s) := by
      rw [placeOrder, made]
      rfl
    exact ⟨fun _ => left ▸ ⟨opened, fault, rfl⟩, fun accepted => absurd ⟨fault, rfl⟩ accepted⟩
  | ok p =>
    have closes : ((placeOrder e s o).run world).1.2.closed = true := by
      rw [placeOrder, made]
      rfl
    exact ⟨fun ⟨_, refused⟩ => (nomatch refused), fun _ => closes⟩

theorem hostJobs_settles (opened : s.closed = false) (kinds : List String) (settings : Settings)
    (world : World) :
    Settles (∃ cause, ((s.perform e.serve .install).run world).1.1 = .error cause)
      ((hostJobs e s kinds settings).run world).1 := by
  have kept := s.perform_closed e.serve .install world
  rw [hostJobs, StateT.run_bind]
  generalize (s.perform e.serve .install).run world = prepared at *
  obtain ⟨⟨result, prepared⟩, world⟩ := prepared
  cases result with
  | error cause =>
    have left : prepared.closed = false := kept.trans opened
    exact ⟨fun _ => ⟨left, _, rfl⟩, fun done => absurd ⟨cause, rfl⟩ done⟩
  | ok answer => exact ⟨fun ⟨_, refused⟩ => (nomatch refused), fun _ => rfl⟩

theorem carryOut_settles (opened : start.closed = false) (command : Command) (world : World) :
    Settles (command.GivesUp e start world) ((command.carryOut e start).run world).1 := by
  cases command with
  | install => exact ⟨False.elim, fun _ => rfl⟩
  | schedule o => exact placeOrder_settles opened o world
  | run kinds settings => exact hostJobs_settles opened kinds settings world

theorem opened_of_connect {refusal : Option LinkError}
    (connected : Session.connect table refusal = .ok start) : start.closed = false := by
  rw [Session.connect.eq_def] at connected
  split at connected
  all_goals cases connected
  rfl

/-- A command that could connect has closed its session at its end, unless its order makes
no payload or its host could not prepare the table. Then the session stays open and the
command fails. -/
theorem closes_unless_it_gives_up (connected : Session.connect table e.refusal = .ok start)
    (command : Command) (world : World) :
    let report := ((command.execute e table).run world).1
    ∃ session, report.session = some session ∧
      (session.closed = true ↔ ¬ command.GivesUp e start world) ∧
      (command.GivesUp e start world → ∃ fault, report.outcome = .error fault) := by
  have settles : Settles (command.GivesUp e start world) _ :=
    carryOut_settles (opened_of_connect connected) command world
  rw [execute_of_connect connected]
  refine ⟨_, rfl, ⟨fun closed givesUp => ?_, settles.closes⟩,
    fun givesUp => (settles.left givesUp).2⟩
  exact Bool.false_ne_true ((settles.left givesUp).1.symm.trans closed)

def refusing : Surroundings (StateM Unit) where
  serve _ := pure (.failed (.other "denied"))
  now := .epoch
  draw := .ofNat
  wait _ := pure ()
  interrupted := pure true
  patience := 1

theorem refused_commands_end :
    let table : TableSettings := { connection := "postgres://localhost" }
    let ends (command : Command) (closed : Bool) : Prop := ∃ session,
      ((command.execute refusing table).run ()).1.session = some session ∧ session.closed = closed
    ends (.schedule { kind := " ", data := "null" }) false ∧ ends (.run [] {}) false ∧
      ends .install true := by
  intro table ends
  have connected : Session.connect table refusing.refusal = .ok { settings := table } := by rfl
  refine ⟨?_, ?_, ?_⟩
  · obtain ⟨session, held, closes, -⟩ :=
      closes_unless_it_gives_up connected (.schedule { kind := " ", data := "null" }) ()
    have givesUp : GivesUp refusing { settings := table } ()
        (.schedule { kind := " ", data := "null" }) :=
      ⟨.emptyKind, rfl⟩
    exact ⟨session, held, by simpa [givesUp] using closes⟩
  · obtain ⟨session, held, closes, -⟩ := closes_unless_it_gives_up connected (.run [] {}) ()
    have givesUp : GivesUp refusing { settings := table } () (.run [] {}) := ⟨_, rfl⟩
    exact ⟨session, held, by simpa [givesUp] using closes⟩
  · obtain ⟨session, held, closes, -⟩ := closes_unless_it_gives_up connected .install ()
    exact ⟨session, held, closes.mpr id⟩

end Command
end DelayedJobs
