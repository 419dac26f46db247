import DelayedJobs.Command.Execute

/-!
A database that answers from a script: some statements that create the table fail a number of times,
and the requests get their replies one after the other. A command is tried out on it in virtual
time, and is interrupted once the script is spent and enough statements have been seen.
-/

namespace DelayedJobs.Simulation

/-- Installation statements with `part` in their text fail, `times` more times. -/
structure ScriptedFailure where
  part : String
  message : String
  times : Nat := 1

namespace ScriptedFailure

def occurs (part : List Char) : List Char → Bool
  | [] => part.isEmpty
  | c :: rest => part.isPrefixOf (c :: rest) || occurs part rest

def hits (f : ScriptedFailure) (text : String) : Bool :=
  f.times != 0 && occurs f.part.toList text.toList

def take? (text : String) : List ScriptedFailure → Option (String × List ScriptedFailure)
  | [] => none
  | f :: rest =>
    if f.hits text then some (f.message, { f with times := f.times - 1 } :: rest)
    else (take? text rest).map fun (message, rest) => (message, f :: rest)

end ScriptedFailure

structure ScriptedDatabase where
  settings : TableSettings
  failures : List ScriptedFailure := []
  /-- Replies to the next requests; the last one is given again and again. -/
  replies : List Reply := []
  sent : Array Statement := #[]

namespace ScriptedDatabase

def nextReply (d : ScriptedDatabase) : Reply × List Reply :=
  match d.replies with
  | [] => (.done 0 [], [])
  | [r] => (r, [r])
  | r :: rest => (r, rest)

def answer (d : ScriptedDatabase) : Statement → Reply × ScriptedDatabase
  | .install step =>
    match ScriptedFailure.take? ((Statement.install step).text d.settings) d.failures with
    | some (message, failures) => (.failed (.other message), { d with failures })
    | none => (.done 0 [], d)
  | .request _ =>
    let (reply, replies) := d.nextReply
    (reply, { d with replies })

def isSpent (d : ScriptedDatabase) (statements : Nat) : Bool :=
  decide (d.replies.length ≤ 1) && decide (statements ≤ d.sent.size)

def serve (statement : Statement) : StateM ScriptedDatabase Reply := fun d =>
  let (reply, d) := d.answer statement
  (reply, { d with sent := d.sent.push statement })

end ScriptedDatabase

structure CommandTrial where
  command : Command
  database : ScriptedDatabase
  refusal : Option LinkError := none
  now : Instant
  draw : Nat → Uuid
  statements : Nat := 0

namespace CommandTrial

def surroundings (t : CommandTrial) : Surroundings (StateM ScriptedDatabase) where
  serve := ScriptedDatabase.serve
  refusal := t.refusal
  now := t.now
  draw := t.draw
  wait _ := pure ()
  interrupted d := (d.isSpent t.statements, d)
  patience := 16 * (t.database.replies.length + t.statements + 4)

def report (t : CommandTrial) : Command.Report × ScriptedDatabase :=
  t.command.execute t.surroundings t.database.settings t.database

/-- Whether the time of a statement does not depend on when the command was started. -/
def isFixed (t : CommandTrial) (time : Instant) : Bool :=
  time == Instant.latest || time == Instant.latest.wholeMicros ||
    match t.command with
    | .schedule o => o.at_.isSome
    | _ => false

end CommandTrial

end DelayedJobs.Simulation
