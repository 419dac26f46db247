import DelayedJobs.Proofs.Table.Database
import DelayedJobs.Proofs.Table.Install

/-!
How a call ends, by the steps that it has made. A call sends what it has to, in order, up to the
first step that fails; that one decides on the error. Once the connections are closed the first step
fails for want of one and nothing is sent.
-/

namespace DelayedJobs

abbrev Exchange := Statement × Reply

namespace LinkError

def IsWant (e : LinkError) : Prop := e = poolClosed ∨ e = poolTimedOut

end LinkError

namespace Statement

def error : Statement → LinkError → StoreError
  | install _, e => e.inInstall
  | request _, e => e.inRequest

/-- The kind of error that a step leads to, by what it is a step of and why it has failed. -/
structure Blames (statement : Statement) (e : LinkError) (cause : StoreError) : Prop where
  unavailable : (∃ text, cause = .unavailable text) ↔ e.IsWant
  install : (∃ text, cause = .install text) ↔ ¬ e.IsWant ∧ statement.IsInstall
  backend : (∃ text, cause = .backend text) ↔ ¬ e.IsWant ∧ ¬ statement.IsInstall
  config : ∀ text, cause ≠ .config text
  serialization : ∀ text, cause ≠ .serialization text

theorem blames_error (statement : Statement) (e : LinkError) :
    statement.Blames e (statement.error e) := by
  cases e <;> cases statement <;> constructor <;>
    simp [error, LinkError.inInstall, LinkError.inRequest, LinkError.toStoreError, LinkError.IsWant,
      IsInstall]

end Statement

namespace Session
variable {m : Type → Type} [Monad m] {serve : Statement → m Reply} {s : Session} {op : Operation}

def sendAll (serve : Statement → m Reply) : List Statement → m (List Exchange)
  | [] => pure []
  | statement :: rest => do
    match ← serve statement with
    | .failed e => return [(statement, .failed e)]
    | .done affected rows => return (statement, .done affected rows) :: (← sendAll serve rest)

def plan (s : Session) (op : Operation) : List Statement :=
  match s.gate with
  | .installed => op.statements
  | _ => (InstallStep.all s.settings).map .install ++ op.statements

def refused (s : Session) (op : Operation) : List Exchange :=
  (s.plan op).head?.toList.map (·, .failed .poolClosed)

def endsWith (s : Session) (steps : List Exchange) : Result × Session :=
  let installed := { s with gate := .installed }
  match steps.getLast? with
  | some (.install _, .failed e) => (.error e.inInstall, { s with gate := .missing })
  | some (.request r, reply) => (s.resultOf r reply, installed)
  | _ => (.ok .done, installed)

variable [LawfulMonad m]

theorem converse_passGate (installed : s.gate = .installed) (opened : s.closed = false)
    (fuel : Nat) :
    converse serve op (fuel + 2) (s.passGate op) s =
      sendAll serve op.statements >>= fun steps => pure (s.endsWith steps) := by
  obtain ⟨settings, gate, closed⟩ := s
  cases installed
  cases opened
  cases op with
  | install =>
    rw [Operation.statements, sendAll, pure_bind]
    rfl
  | request r =>
    refine (converse_acting r fuel).trans ?_
    rw [Operation.statements, sendAll, bind_assoc]
    refine bind_congr fun reply => ?_
    cases reply with
    | failed e => simp [endsWith, resultOf]
    | done affected rows => simp [sendAll, endsWith]

theorem endsWith_cons (s : Session) (step : InstallStep) (affected : Nat) (rows : List JobRow)
    (steps : List Exchange) :
    s.endsWith ((.install step, .done affected rows) :: steps) = s.endsWith steps := by
  cases steps with
  | nil => rfl
  | cons => rw [endsWith, List.getLast?_cons_cons, endsWith]

theorem endsWith_sendAll (s : Session) (step : InstallStep) (statements : List Statement) :
    (sendAll serve (.install step :: statements) >>= fun steps => pure (s.endsWith steps)) =
      serve (.install step) >>= fun
        | .failed e => pure (.error e.inInstall, { s with gate := .missing })
        | .done _ _ => sendAll serve statements >>= fun steps => pure (s.endsWith steps) := by
  rw [sendAll, bind_assoc]
  refine bind_congr fun reply => ?_
  cases reply with
  | failed e =>
    rw [pure_bind]
    rfl
  | done affected rows => simp only [bind_assoc, pure_bind, endsWith_cons]

theorem converse_steps (opened : s.closed = false) (rest : List InstallStep) (step : InstallStep) :
    converse serve op (rest.length + 4) (.installing step rest) s =
      sendAll serve ((step :: rest).map .install ++ op.statements) >>= fun steps =>
        pure (s.endsWith steps) := by
  induction rest generalizing step with
  | nil =>
    refine Eq.trans (bind_congr fun reply => ?_) (endsWith_sendAll s step op.statements).symm
    cases reply with
    | failed e => rfl
    | done affected rows =>
      exact converse_passGate (s := { s with gate := .installed }) rfl opened 1
  | cons next rest ih =>
    refine Eq.trans (bind_congr fun reply => ?_)
      (endsWith_sendAll s step ((next :: rest).map .install ++ op.statements)).symm
    cases reply with
    | failed e => rfl
    | done affected rows => exact ih next

/-- A call beside which no other caller is creating the table sends what it has to, up to the first
step that fails, and ends by its steps. -/
theorem perform_eq (calm : s.gate ≠ .installing) (op : Operation) :
    s.perform serve op = (if s.closed then pure (s.refused op) else sendAll serve (s.plan op)) >>=
      fun steps => pure (s.endsWith steps) := by
  obtain ⟨settings, gate, closed⟩ := s
  cases gate with
  | installing => exact absurd rfl calm
  | installed =>
    cases closed with
    | false =>
      exact converse_passGate (s := ⟨settings, .installed, false⟩) rfl rfl
        ((InstallStep.all settings).length + 1)
    | true =>
      rw [if_pos rfl, pure_bind]
      cases op <;> rfl
  | missing =>
    cases closed with
    | false =>
      exact converse_steps (s := ⟨settings, .installing, false⟩) rfl
        (InstallStep.rest settings) .begin_
    | true =>
      rw [if_pos rfl, pure_bind]
      rfl

/-- Steps that were made of these statements: in order, and up to the first one that failed. -/
inductive Follows : List Statement → List Exchange → Prop
  | nil : Follows [] []
  | failed (statement : Statement) (rest : List Statement) (e : LinkError) :
    Follows (statement :: rest) [(statement, .failed e)]
  | done {statement : Statement} {rest : List Statement} {steps : List Exchange} (affected : Nat)
    (rows : List JobRow) :
    Follows rest steps → Follows (statement :: rest) ((statement, .done affected rows) :: steps)

section Steps
variable {statements : List Statement} {steps : List Exchange} {statement : Statement}
    {e : LinkError}

theorem Follows.isPrefix (h : Follows statements steps) : steps.map Prod.fst <+: statements := by
  induction h with
  | nil => exact List.prefix_rfl
  | failed statement rest e => exact ⟨rest, rfl⟩
  | done affected rows _ ih => exact (List.prefix_cons_inj _).mpr ih

theorem Follows.last_of_failed (h : Follows statements steps)
    (failed : (statement, .failed e) ∈ steps) :
    steps.getLast? = some (statement, .failed e) := by
  induction h with
  | nil => cases failed
  | failed => rw [List.mem_singleton.mp failed, List.getLast?_singleton]
  | done affected rows follows ih =>
    have later := ih ((List.mem_cons.mp failed).resolve_left (by simp))
    rw [List.getLast?_cons, later, Option.getD_some]

theorem Follows.whole (h : Follows statements steps)
    (done : ∀ statement e, (statement, .failed e) ∉ steps) : steps.map Prod.fst = statements := by
  induction h with
  | nil => rfl
  | failed statement rest e => exact absurd (.head _) (done statement e)
  | done affected rows _ ih =>
    rw [List.map_cons, ih fun statement e failed => done statement e (.tail _ failed)]

end Steps

variable {World : Type} {serve : Statement → StateM World Reply} {s : Session} {op : Operation}
  {statement : Statement} {world after : World}

theorem run_sendAll_failed (rest : List Statement) {e : LinkError}
    (replied : (serve statement).run world = (.failed e, after)) :
    (sendAll serve (statement :: rest)).run world = ([(statement, .failed e)], after) := by
  rw [sendAll, StateT.run_bind, replied]
  rfl

theorem run_sendAll_done (rest : List Statement) {affected : Nat} {rows : List JobRow}
    (replied : (serve statement).run world = (.done affected rows, after)) :
    (sendAll serve (statement :: rest)).run world =
      ((statement, .done affected rows) :: ((sendAll serve rest).run after).1,
        ((sendAll serve rest).run after).2) := by
  rw [sendAll, StateT.run_bind, replied]
  rfl

theorem sendAll_follows (statements : List Statement) (world : World) :
    Follows statements ((sendAll serve statements).run world).1 := by
  induction statements generalizing world with
  | nil => exact .nil
  | cons statement rest ih =>
    cases replied : (serve statement).run world with
    | mk reply after =>
      cases reply with
      | failed e =>
        rw [run_sendAll_failed rest replied]
        exact .failed statement rest e
      | done affected rows =>
        rw [run_sendAll_done rest replied]
        exact .done affected rows (ih after)

def noting (serve : Statement → StateM World Reply) (statement : Statement) :
    StateM (World × List Exchange) Reply :=
  fun noted =>
    let answered := (serve statement).run noted.1
    (answered.1, (answered.2, noted.2 ++ [(statement, answered.1)]))

theorem sendAll_noting (statements : List Statement) (world : World) (before : List Exchange) :
    (sendAll (noting serve) statements).run (world, before) =
      (((sendAll serve statements).run world).1,
        ((sendAll serve statements).run world).2,
        before ++ ((sendAll serve statements).run world).1) := by
  induction statements generalizing world before with
  | nil => exact congrArg (fun steps => ([], (world, steps))) (List.append_nil before).symm
  | cons statement rest ih =>
    cases replied : (serve statement).run world with
    | mk reply after =>
      have noted : (noting serve statement).run (world, before) =
          (reply, (after, before ++ [(statement, reply)])) := by
        change (((serve statement).run world).1, (((serve statement).run world).2,
          before ++ [(statement, ((serve statement).run world).1)])) = _
        rw [replied]
      cases reply with
      | failed e => rw [run_sendAll_failed rest noted, run_sendAll_failed rest replied]
      | done affected rows =>
        rw [run_sendAll_done rest noted, run_sendAll_done rest replied, ih, List.append_assoc,
          List.singleton_append]

structure Accounts (s : Session) (op : Operation) (steps : List Exchange)
    (ended : Result × Session) :
    Prop where
  inOrder : steps.map Prod.fst <+: s.plan op
  whole : ∀ answer, ended.1 = .ok answer → steps.map Prod.fst = s.plan op
  fails : (∃ cause, ended.1 = .error cause) ↔ ∃ statement e, (statement, .failed e) ∈ steps
  blames : ∀ statement e, (statement, .failed e) ∈ steps →
    steps.getLast? = some (statement, .failed e) ∧
      ∃ cause, ended.1 = .error cause ∧ statement.Blames e cause
  /-- A lease is told to be lost only when its renewal was carried out and has found no row. -/
  lost : ∀ worker job t, op = .request (.keep worker job t) → (ended.1 = .ok (.kept false) ↔
    ∃ rows, steps.getLast? = some (.request (.keep worker job t), .done 0 rows))
  missing : ended.2.gate = .missing ↔ ∃ step e, (.install step, .failed e) ∈ steps
  calm : ended.2.gate ≠ .installing
  closed : ended.2.closed = s.closed

theorem eq_of_request_mem_plan {r : Store.Request} (planned : .request r ∈ s.plan op) :
    op = .request r := by
  have own : .request r ∈ op.statements := by
    rw [plan] at planned
    split at planned
    · exact planned
    · exact (List.mem_append.mp planned).resolve_left (by simp)
  cases op with
  | install => cases own
  | request other => rw [Statement.request.inj (List.mem_singleton.mp own)]

section Ends
variable {steps : List Exchange} {e : LinkError}

theorem endsWith_failed (last : steps.getLast? = some (statement, .failed e)) :
    (s.endsWith steps).1 = .error (statement.error e) ∧
      ((s.endsWith steps).2.gate = .missing ↔ statement.IsInstall) := by
  rw [endsWith, last]
  cases statement with
  | install => exact ⟨rfl, iff_of_true rfl trivial⟩
  | request => exact ⟨rfl, iff_of_false nofun id⟩

theorem endsWith_done (done : ∀ statement e, (statement, .failed e) ∉ steps) :
    (∃ answer, (s.endsWith steps).1 = .ok answer) ∧ (s.endsWith steps).2.gate = .installed := by
  cases last : steps.getLast? with
  | none =>
    rw [endsWith, last]
    exact ⟨⟨_, rfl⟩, rfl⟩
  | some exchange =>
    obtain ⟨statement, reply⟩ := exchange
    cases reply with
    | failed e => exact absurd (List.mem_of_getLast? last) (done statement e)
    | done affected rows =>
      rw [endsWith, last]
      cases statement
      all_goals exact ⟨⟨_, rfl⟩, rfl⟩

theorem endsWith_kept {kept : Bool} (answered : (s.endsWith steps).1 = .ok (.kept kept)) :
    ∃ worker job t affected rows, kept = decide (0 < affected) ∧
      steps.getLast? = some (.request (.keep worker job t), .done affected rows) := by
  rw [endsWith] at answered
  split at answered
  next => cases answered
  next r reply last =>
    cases reply with
    | failed e => cases answered
    | done affected rows =>
      cases r with
      | keep worker job t => exact ⟨worker, job, t, affected, rows, by cases answered; rfl, last⟩
      | _ => cases answered
  next => cases answered

theorem endsWith_calm :
    (s.endsWith steps).2.gate ≠ .installing ∧ (s.endsWith steps).2.closed = s.closed := by
  rw [endsWith]
  split
  all_goals exact ⟨nofun, rfl⟩

theorem Follows.lost_iff (h : Follows (s.plan op) steps) {worker : WorkerId} {job : Job}
    {t : Instant}
    (own : op = .request (.keep worker job t)) : (s.endsWith steps).1 = .ok (.kept false) ↔
      ∃ rows, steps.getLast? = some (.request (.keep worker job t), .done 0 rows) := by
  constructor
  · intro answered
    obtain ⟨worker', job', t', affected, rows, counts, last⟩ := endsWith_kept answered
    have planned := h.isPrefix.subset (List.mem_map_of_mem (List.mem_of_getLast? last))
    cases own.symm.trans (eq_of_request_mem_plan planned)
    obtain rfl : affected = 0 := by simpa using counts
    exact ⟨rows, last⟩
  · rintro ⟨rows, last⟩
    rw [endsWith, last]
    rfl

theorem Follows.accounts (h : Follows (s.plan op) steps) :
    s.Accounts op steps (s.endsWith steps) := by
  have lost (worker job t) (own : op = .request (.keep worker job t)) := h.lost_iff own
  by_cases failed : ∃ statement e, (statement, .failed e) ∈ steps
  · obtain ⟨statement, e, found⟩ := id failed
    have last := h.last_of_failed found
    obtain ⟨ends, gate⟩ := endsWith_failed (s := s) last
    have only {other e'} (found' : (other, .failed e') ∈ steps) : other = statement ∧ e' = e := by
      cases last.symm.trans (h.last_of_failed found')
      exact ⟨rfl, rfl⟩
    refine ⟨h.isPrefix, ?_, iff_of_true ⟨_, ends⟩ failed, ?_, lost, gate.trans ⟨?_, ?_⟩,
      endsWith_calm.1, endsWith_calm.2⟩
    · exact fun answer answered => nomatch ends.symm.trans answered
    · intro other e' found'
      obtain ⟨rfl, rfl⟩ := only found'
      exact ⟨last, _, ends, other.blames_error e'⟩
    · intro installs
      cases statement with
      | install step => exact ⟨step, e, found⟩
      | request => cases installs
    · rintro ⟨step, e', found'⟩
      obtain ⟨rfl, -⟩ := only found'
      trivial
  · have done : ∀ statement e, (statement, .failed e) ∉ steps := by simpa using failed
    obtain ⟨⟨answer, ends⟩, gate⟩ := endsWith_done (s := s) done
    refine ⟨h.isPrefix, fun _ _ => h.whole done, iff_of_false ?_ failed, ?_, lost,
      iff_of_false ?_ ?_, endsWith_calm.1, endsWith_calm.2⟩
    · exact fun ⟨cause, refused⟩ => nomatch ends.symm.trans refused
    · exact fun statement e found => absurd found (done statement e)
    · exact fun missing => nomatch gate.symm.trans missing
    · exact fun ⟨step, e, found⟩ => done _ e found

end Ends

theorem refused_follows (s : Session) (op : Operation) : Follows (s.plan op) (s.refused op) := by
  rw [refused]
  cases s.plan op with
  | nil => exact .nil
  | cons statement rest => exact .failed statement rest .poolClosed

theorem endsWith_refused (calm : s.gate ≠ .installing) : (s.endsWith (s.refused op)).2 = s ∧
    (op = .install → s.gate = .installed → (s.endsWith (s.refused op)).1 = .ok .done) ∧
    (¬ (op = .install ∧ s.gate = .installed) →
      ∃ text, (s.endsWith (s.refused op)).1 = .error (.unavailable text)) := by
  obtain ⟨settings, gate, closed⟩ := s
  cases gate with
  | installing => exact absurd rfl calm
  | missing => exact ⟨rfl, fun _ => nofun, fun _ => ⟨_, rfl⟩⟩
  | installed =>
    cases op with
    | install => exact ⟨rfl, fun _ _ => rfl, fun other => absurd ⟨rfl, rfl⟩ other⟩
    | request => exact ⟨rfl, nofun, fun _ => ⟨_, rfl⟩⟩

theorem run_perform_closed (calm : s.gate ≠ .installing) (closed : s.closed = true) (op : Operation)
    (serve : Statement → StateM World Reply) (world : World) :
    (s.perform serve op).run world = (s.endsWith (s.refused op), world) := by
  rw [perform_eq calm, if_pos closed, pure_bind]
  rfl

theorem run_perform_opened (calm : s.gate ≠ .installing) (opened : s.closed = false)
    (op : Operation) (serve : Statement → StateM World Reply) (world : World) :
    (s.perform serve op).run world = (s.endsWith ((sendAll serve (s.plan op)).run world).1,
      ((sendAll serve (s.plan op)).run world).2) := by
  rw [perform_eq calm, if_neg (by simp [opened]), StateT.run_bind]
  rfl

/-- However the database answers, a call on a session beside which no other caller is creating the
table ends by its steps. On closed connections it sends nothing and fails for want of a connection,
unless there is nothing to do. -/
theorem fails_by_its_step (calm : s.gate ≠ .installing) (op : Operation)
    (serve : Statement → StateM World Reply) (world : World) :
    let ended := (s.perform serve op).run world
    let noted := (s.perform (noting serve) op).run (world, [])
    (noted.1 = ended.1 ∧ noted.2.1 = ended.2) ∧
    s.Accounts op (if s.closed then s.refused op else noted.2.2) ended.1 ∧
    (s.closed = true → noted.2 = (world, []) ∧ ended.1.2 = s ∧
      (op = .install → s.gate = .installed → ended.1.1 = .ok .done) ∧
      (¬ (op = .install ∧ s.gate = .installed) →
        ∃ text, ended.1.1 = .error (.unavailable text))) := by
  intro ended noted
  cases closed : s.closed with
  | true =>
    have ends : ended = (s.endsWith (s.refused op), world) :=
      run_perform_closed calm closed op serve world
    have notes : noted = (s.endsWith (s.refused op), (world, [])) :=
      run_perform_closed calm closed op (noting serve) (world, [])
    rw [ends, notes]
    exact ⟨⟨rfl, rfl⟩, (s.refused_follows op).accounts, fun _ => ⟨rfl, endsWith_refused calm⟩⟩
  | false =>
    have ends : ended = _ := run_perform_opened calm closed op serve world
    have notes : noted = _ := run_perform_opened calm closed op (noting serve) (world, [])
    rw [sendAll_noting, List.nil_append] at notes
    rw [ends, notes]
    exact ⟨⟨rfl, rfl⟩, (sendAll_follows (s.plan op) world).accounts, nofun⟩

def stalling : Statement → StateM Unit Reply
  | .install .lock => pure (.failed .poolTimedOut)
  | _ => pure (.done 0 [])

/-- A renewal that finds no table is not told that the lease is lost; with a table it is, and not
when the connections are closed. -/
theorem renewal_stalls :
    let s : Session := { settings := { connection := "postgres://localhost" } }
    let renewal : Operation := .request (.keep default default .epoch)
    let answer (s : Session) : Result := ((s.perform stalling renewal).run ()).1.1
    (∃ text, answer s = .error (.unavailable text)) ∧
      answer { s with gate := .installed } = .ok (.kept false) ∧
      ∃ text, answer { s with gate := .installed, closed := true } =
        .error (.unavailable text) := by
  intro s renewal answer
  refine ⟨?_, ?_, ?_⟩
  · have ends := (fails_by_its_step (s := s) nofun renewal stalling ()).2.1
    have failed : (Statement.install .lock, Reply.failed .poolTimedOut) ∈
        ((s.perform (noting stalling) renewal).run ((), [])).2.2 := .tail _ (.head _)
    obtain ⟨-, cause, refused, blames⟩ := ends.blames _ _ failed
    obtain ⟨text, rfl⟩ := blames.unavailable.mpr (.inr rfl)
    exact ⟨text, refused⟩
  · have ends := (fails_by_its_step (s := { s with gate := .installed }) nofun renewal
      stalling ()).2.1
    exact (ends.lost _ _ _ rfl).mpr ⟨[], rfl⟩
  · have ends := (fails_by_its_step (s := { s with gate := .installed, closed := true })
      nofun renewal stalling ()).2.2 rfl
    exact ends.2.2.2 nofun

end Session
end DelayedJobs
