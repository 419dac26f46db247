import DelayedJobs.Table.Session

/-!
A session with many callers at once. Callers arrive, come to the gate and get their replies in any
order; the log keeps what was sent and what was answered.
-/

namespace DelayedJobs

structure Caller where
  operation : Operation
  phase : Session.Phase := .waiting

inductive TrafficEntry where
  | sent (caller : Nat) (statement : Statement)
  | answered (caller : Nat) (reply : Reply)

structure Traffic where
  session : Session
  callers : List Caller := []
  /-- Latest first. -/
  log : List TrafficEntry := []

namespace Traffic

inductive Event where
  | arrive (op : Operation)
  | enter (caller : Nat)
  | reply (caller : Nat) (r : Reply)
  | close

def move (t : Traffic) (i : Nat) (c : Caller) (phase : Session.Phase) (session : Session) :
    Traffic where
  session := session
  callers := t.callers.set i { c with phase }
  log := (phase.inFlight? c.operation).toList.map (.sent i) ++ t.log

def step (t : Traffic) : Event → Option Traffic
  | .arrive op => some { t with callers := t.callers ++ [{ operation := op }] }
  | .enter i => do
    let c ← t.callers[i]?
    match c.phase with
    | .waiting =>
      let (phase, session) ← t.session.enter? c.operation
      return t.move i c phase session
    | _ => failure
  | .reply i r => do
    let c ← t.callers[i]?
    let (phase, session) ← t.session.receive? c.operation c.phase r
    return { t with log := .answered i r :: t.log }.move i c phase session
  | .close => some { t with session := t.session.close }

def run? (t : Traffic) : List Event → Option Traffic
  | [] => some t
  | e :: rest => (t.step e).bind fun t => t.run? rest

end Traffic
end DelayedJobs
