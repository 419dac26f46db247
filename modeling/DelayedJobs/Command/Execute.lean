import DelayedJobs.Command.Basic
import DelayedJobs.Command.Host
import DelayedJobs.Time.Timestamp

/-!
Commands carried out. Every command connects first; what it prints and how it fails is told at its
end, together with the session that it leaves.
-/

namespace DelayedJobs

inductive CommandError where
  | connect (table : String) (cause : StoreError)
  | install (table : String) (cause : StoreError)
  | prepare (cause : StoreError)
  | emptyKind
  | invalidData (text : String) (cause : Json.Fault)
  | schedule (cause : StoreError)
  | listen (cause : String)
deriving DecidableEq

namespace CommandError

/-- What went wrong, from the outside in. -/
def chain : CommandError → List String
  | connect table cause => ["Failed to connect to Postgres for " ++ table, cause.message]
  | install table cause => ["Failed to install " ++ table, cause.message]
  | prepare cause => ["Failed to prepare jobs table", cause.message]
  | emptyKind => ["Job kind cannot be empty"]
  | invalidData text cause => ["Invalid JSON data: " ++ text, "json " ++ cause.name]
  | schedule cause => ["Failed to schedule job", cause.message]
  | listen cause => ["Failed to listen for Ctrl-C", cause]

end CommandError

namespace Command

abbrev Outcome := Except CommandError (List String)

structure Report where
  outcome : Outcome
  session : Option Session

variable {m : Type → Type} [Monad m]

def createTable (e : Surroundings m) (session : Session) : m (Outcome × Session) := do
  let table := session.settings.tableName
  let (result, session) ← session.perform e.serve .install
  let outcome := match result with
    | .ok _ => .ok ["Installed " ++ table]
    | .error cause => .error (.install table cause)
  return (outcome, session.close)

def payload (o : Order) : Except CommandError Payload :=
  if Text.allBlank o.kind.toList then .error .emptyKind
  else
    match Json.parse o.data with
    | .ok data => .ok ⟨o.kind, data⟩
    | .error fault => .error (.invalidData o.data fault)

def due (now : Instant) (o : Order) : Timestamp :=
  match o.at_, o.delay with
  | some t, _ => t
  | none, some delay => .ofInstant (now.afterSeconds delay.toNat)
  | none, none => .ofInstant now

def placeOrder (e : Surroundings m) (session : Session) (o : Order) : m (Outcome × Session) := do
  match payload o with
  | .error fault => return (.error fault, session)
  | .ok payload =>
    let id := e.draw 0
    let due := due e.now o
    let (result, session) ←
      session.perform e.serve (.request (.schedule id payload due.instant))
    let outcome := match result with
      | .ok _ => .ok [
          "Job scheduled successfully!", "  ID: " ++ id.toString, "  Kind: " ++ o.kind,
          "  Runs at: " ++ String.ofList due.toOffsetText]
      | .error cause => .error (.schedule cause)
    return (outcome, session.close)

def hostJobs (e : Surroundings m) (session : Session) (kinds : List String) (settings : Settings) :
    m (Outcome × Session) := do
  match ← session.perform e.serve .install with
  | (.error cause, session) => return (.error (.prepare cause), session)
  | (.ok _, session) =>
    let host ← (Host.start settings e.now kinds e.draw session).work e e.patience
    let outcome := match e.listenFault with
      | none => .ok []
      | some cause => .error (.listen cause)
    return (outcome, host.session.close)

def execute (e : Surroundings m) (table : TableSettings) (command : Command) : m Report := do
  match Session.connect table e.refusal with
  | .error cause => return ⟨.error (.connect table.tableName cause), none⟩
  | .ok session =>
    let (outcome, session) ← match command with
      | .install => createTable e session
      | .schedule order => placeOrder e session order
      | .run kinds settings => hostJobs e session kinds settings
    return ⟨outcome, some session⟩

end Command
end DelayedJobs
