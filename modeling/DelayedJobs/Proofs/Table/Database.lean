import DelayedJobs.Table.Meaning
import DelayedJobs.Table.Session

/-!
A store over a table of rows. Its database does what the statements mean, one at a time, and comes
upon the rows in any order. Before the first request the table is created; from then on a call sends
the one statement of its request.
-/

namespace DelayedJobs

/-- Times travel to the database and back in whole microseconds. -/
def Statement.serve (order : RowOrder) (s : TableSettings) :
    Statement → StateM (List JobRow) Reply
  | .install _ => pure (.done 0 [])
  | .request r => fun rows =>
    match r.query.run? order (((Statement.request r).params s).map SqlValue.onWire) rows with
    | some (answer, rows) => (.done answer.affected (answer.returned.map JobRow.onWire), rows)
    | none => (.failed (.other "the statement has failed"), rows)

structure TableStore where
  session : Session
  rows : List JobRow := []

namespace TableStore

abbrev Call := RowOrder × Store.Request

def call (t : TableStore) (c : Call) : Session.Result × TableStore :=
  let serve := Statement.serve c.1 t.session.settings
  let ((result, session), rows) := (t.session.perform serve (.request c.2)).run t.rows
  (result, { session, rows })

def run (t : TableStore) : List Call → List Session.Result × TableStore
  | [] => ([], t)
  | c :: rest =>
    let (result, t) := t.call c
    let (results, t) := t.run rest
    (result :: results, t)

end TableStore

namespace Session
variable {m : Type → Type} [Monad m] {serve : Statement → m Reply} {s : Session}

def resultOf (s : Session) (r : Store.Request) : Reply → Result
  | .done affected rows => .ok (r.answer s.settings.pruneBatch.toNat affected rows)
  | .failed e => .error e.inRequest

theorem converse_acting (r : Store.Request) (fuel : Nat) :
    converse serve (.request r) (fuel + 2) .acting s =
      serve (.request r) >>= fun reply => pure (s.resultOf r reply, s) := by
  refine bind_congr fun reply => ?_
  cases reply <;> rfl

variable [LawfulMonad m]

theorem converse_installing (installs : ∀ step, serve (.install step) = pure (.done 0 []))
    (op : Operation) (rest : List InstallStep) (step : InstallStep) (fuel : Nat) :
    converse serve op (fuel + (rest.length + 1)) (.installing step rest) s =
      converse serve op fuel ({ s with gate := .installed }.passGate op)
        { s with gate := .installed } := by
  induction rest generalizing step with
  | nil =>
    change serve (.install step) >>= _ = _
    rw [installs, pure_bind]
    rfl
  | cons next rest ih =>
    change serve (.install step) >>= _ = _
    rw [installs, pure_bind]
    exact ih next

/-- A call on an open session, beside which no other caller is creating the table, comes down to the
statement of its request. -/
theorem perform_request (installs : ∀ step, serve (.install step) = pure (.done 0 []))
    (notInstalling : s.gate ≠ .installing) (opened : s.closed = false) (r : Store.Request) :
    s.perform serve (.request r) =
      serve (.request r) >>= fun reply =>
        pure (s.resultOf r reply, { s with gate := .installed }) := by
  obtain ⟨tableSettings, gate, closed⟩ := s
  subst opened
  cases gate with
  | installing => exact absurd rfl notInstalling
  | installed => exact converse_acting r ((InstallStep.all tableSettings).length + 1)
  | missing =>
    have creates := converse_installing (s := ⟨tableSettings, .installing, false⟩) installs
      (.request r) (InstallStep.rest tableSettings) .begin_ 3
    rw [Nat.add_comm 3] at creates
    exact creates.trans (converse_acting r 1)

end Session

theorem TableStore.call_eq {t : TableStore} (notInstalling : t.session.gate ≠ .installing)
    (opened : t.session.closed = false) {order : RowOrder} {r : Store.Request}
    {answer : RowsAnswer} {rows : List JobRow}
    (runs : r.query.run? order
      (((Statement.request r).params t.session.settings).map SqlValue.onWire) t.rows =
        some (answer, rows)) :
    t.call (order, r) =
      (t.session.resultOf r (.done answer.affected (answer.returned.map JobRow.onWire)),
        { session := { t.session with gate := .installed }, rows }) := by
  have serves : (Statement.serve order t.session.settings (.request r)).run t.rows =
      (.done answer.affected (answer.returned.map JobRow.onWire), rows) := by
    change (match r.query.run? order _ t.rows with | some (answer, rows) => _ | none => _) = _
    rw [runs]
  rw [call, Session.perform_request (fun _ => rfl) notInstalling opened]
  simp only [StateT.run_bind, serves]
  rfl

end DelayedJobs
