import DelayedJobs.Table.Reply
import DelayedJobs.Table.Statement

/-!
A store over a table. The table is created by the first caller who needs it, while later callers
wait at a gate; when that fails the next caller tries again. A caller goes through phases, and a
reply to the statement in flight takes it from one to the next.
-/

namespace DelayedJobs

inductive Gate where
  | missing
  | installing
  | installed
deriving DecidableEq

structure Session where
  settings : TableSettings
  gate : Gate := .missing
  closed : Bool := false

inductive Operation where
  | install
  | request (r : Store.Request)

namespace Session

/-- An installation answers like a request that says nothing. -/
abbrev Result := Except StoreError Store.Answer

inductive Phase where
  | waiting
  | installing (inFlight : InstallStep) (rest : List InstallStep)
  | acting
  | finished (result : Result)

def Phase.inFlight? : Operation → Phase → Option Statement
  | _, installing step _ => some (.install step)
  | .request r, acting => some (.request r)
  | _, _ => none

def connect (s : TableSettings) (refusal : Option LinkError) : Except StoreError Session :=
  match s.validate, refusal with
  | .error e, _ => .error e
  | .ok (), some e => .error e.inRequest
  | .ok (), none => .ok { settings := s }

def overPool (s : TableSettings) : Except StoreError Session :=
  match s.validate with
  | .error e => .error e
  | .ok () => .ok { settings := s }

def passGate (s : Session) : Operation → Phase
  | .install => .finished (.ok .done)
  | .request _ => if s.closed then .finished (.error LinkError.poolClosed.inRequest) else .acting

/-- A waiting caller comes to the gate; none while another one is at work there. -/
def enter? (s : Session) (op : Operation) : Option (Phase × Session) :=
  match s.gate with
  | .installed => some (s.passGate op, s)
  | .installing => none
  | .missing =>
    if s.closed then some (.finished (.error LinkError.poolClosed.inInstall), s)
    else some (.installing .begin_ (InstallStep.rest s.settings), { s with gate := .installing })

def receive? (s : Session) (op : Operation) : Phase → Reply → Option (Phase × Session)
  | .installing _ _, .failed e =>
    some (.finished (.error e.inInstall), { s with gate := .missing })
  | .installing _ (next :: rest), .done _ _ => some (.installing next rest, s)
  | .installing _ [], .done _ _ =>
    let s := { s with gate := .installed }
    some (s.passGate op, s)
  | .acting, .failed e => some (.finished (.error e.inRequest), s)
  | .acting, .done affected rows =>
    match op with
    | .request r => some (.finished (.ok (r.answer s.settings.pruneBatch.toNat affected rows)), s)
    | .install => none
  | _, _ => none

def close (s : Session) : Session := { s with closed := true }

def busy : StoreError := .unavailable "another caller is creating the table"

variable {m : Type → Type} [Monad m]

/-- Takes a caller to its result, at most `fuel` steps away. -/
def converse (serve : Statement → m Reply) (op : Operation) :
    (fuel : Nat) → Phase → Session → m (Result × Session)
  | 0, _, s => pure (.error busy, s)
  | fuel + 1, phase, s =>
    match phase with
    | .finished result => pure (result, s)
    | .waiting =>
      match s.enter? op with
      | some (phase, s) => converse serve op fuel phase s
      | none => pure (.error busy, s)
    | phase =>
      match phase.inFlight? op with
      | none => pure (.error busy, s)
      | some statement => do
        let reply ← serve statement
        match s.receive? op phase reply with
        | some (phase, s) => converse serve op fuel phase s
        | none => pure (.error busy, s)

/-- One call from beginning to end, with no other caller beside it. -/
def perform (serve : Statement → m Reply) (op : Operation) (s : Session) : m (Result × Session) :=
  converse serve op ((InstallStep.all s.settings).length + 4) .waiting s

end Session
end DelayedJobs
