import DelayedJobs.Table.Traffic
import Mathlib.Data.List.Basic

/-!
Many callers at one session. At most one of them creates the table at a time; statements of requests
are sent only after that has succeeded, and statements that create the table only before. A caller
asks in a fixed order and stops at the first failure, and after a failure the next one tries again.
-/

namespace DelayedJobs

def Reply.IsDone : Reply → Prop
  | .done _ _ => True
  | .failed _ => False

def Statement.IsInstall : Statement → Prop
  | .install _ => True
  | .request _ => False

def Operation.statements : Operation → List Statement
  | .install => []
  | .request r => [.request r]

def Session.Phase.IsInstalling : Session.Phase → Prop
  | .installing _ _ => True
  | _ => False

namespace InstallStep

theorem all_eq (s : TableSettings) :
    ∃ before, all s = before ++ [commit] ∧ commit ∉ before := by
  refine ⟨begin_ :: lock :: s.schema.toList.map createSchema ++ [createTable, createIndex], ?_, ?_⟩
  · simp [all, rest]
  · simp

theorem eq_commit {s : TableSettings} {before : List InstallStep} {step : InstallStep}
    (h : all s = before ++ [step]) : step = commit := by
  obtain ⟨_, eq, -⟩ := all_eq s
  rw [eq] at h
  exact (List.append_inj' h rfl).2 |> List.singleton_inj.mp |>.symm

theorem ne_commit {s : TableSettings} {before rest : List InstallStep} {step next : InstallStep}
    (h : all s = before ++ step :: next :: rest) : step ≠ commit := by
  obtain ⟨first, eq, last⟩ := all_eq s
  rintro rfl
  rw [eq, ← List.dropLast_append_getLast (List.cons_ne_nil next rest), ← List.cons_append,
    ← List.append_assoc] at h
  apply last
  rw [(List.append_inj' h rfl).1]
  simp

end InstallStep

namespace Traffic
open Session (Phase Result)

def asked (i : Nat) : List TrafficEntry → List Statement
  | [] => []
  | .sent j s :: log => if j = i then asked i log ++ [s] else asked i log
  | .answered _ _ :: log => asked i log

def heard (i : Nat) : List TrafficEntry → List Reply
  | [] => []
  | .sent _ _ :: log => heard i log
  | .answered j r :: log => if j = i then heard i log ++ [r] else heard i log

/-- A commit has been answered well. -/
def Migrated (log : List TrafficEntry) : Prop :=
  ∃ after i affected rows before, log = after ++ .answered i (.done affected rows) :: before ∧
    (asked i before).getLast? = some (.install .commit)

section Logs
variable {i : Nat} {log : List TrafficEntry} {s : Statement} {r : Reply}

@[simp] theorem asked_sent_self : asked i (.sent i s :: log) = asked i log ++ [s] := if_pos rfl

@[simp] theorem not_migrated_nil : ¬Migrated [] := by
  rintro ⟨after, _, _, _, _, eq, -⟩
  cases after <;> cases eq

theorem migrated_cons {e : TrafficEntry} : Migrated (e :: log) ↔
    (∃ i affected rows, e = .answered i (.done affected rows) ∧
      (asked i log).getLast? = some (.install .commit)) ∨ Migrated log := by
  constructor
  · rintro ⟨after, i, affected, rows, before, eq, commits⟩
    cases after with
    | nil =>
      cases eq
      exact .inl ⟨i, affected, rows, rfl, commits⟩
    | cons _ after =>
      cases eq
      exact .inr ⟨after, i, affected, rows, before, rfl, commits⟩
  · rintro (⟨i, affected, rows, rfl, commits⟩ | ⟨after, i, affected, rows, before, rfl, commits⟩)
    · exact ⟨[], i, affected, rows, log, rfl, commits⟩
    · exact ⟨e :: after, i, affected, rows, before, rfl, commits⟩

@[simp] theorem migrated_sent : Migrated (.sent i s :: log) ↔ Migrated log := by
  simp [migrated_cons]

theorem migrated_answered : Migrated (.answered i r :: log) ↔
    (r.IsDone ∧ (asked i log).getLast? = some (.install .commit)) ∨ Migrated log := by
  cases r <;> simp [migrated_cons, Reply.IsDone]

end Logs

def Ordered (log : List TrafficEntry) : Prop :=
  ∀ after i s before, log = after ++ .sent i s :: before → (s.IsInstall ↔ ¬Migrated before)

theorem ordered_cons {e : TrafficEntry} {log : List TrafficEntry} (h : Ordered log)
    (fits : ∀ i s, e = .sent i s → (s.IsInstall ↔ ¬Migrated log)) : Ordered (e :: log) := by
  intro after i s before eq
  cases after with
  | nil =>
    cases eq
    exact fits i s rfl
  | cons _ after =>
    cases eq
    exact h after i s before rfl

def Answered (steps : List InstallStep) (replies : List Reply) : Prop :=
  replies.length = steps.length ∧ ∀ r ∈ replies, r.IsDone

theorem answered_nil : Answered [] [] := ⟨rfl, nofun⟩

theorem Answered.snoc {steps : List InstallStep} {replies : List Reply} (h : Answered steps replies)
    (step : InstallStep) {r : Reply} (done : r.IsDone) :
    Answered (steps ++ [step]) (replies ++ [r]) := by
  refine ⟨by simp [h.1], ?_⟩
  simpa [or_imp, forall_and] using ⟨h.2, done⟩

inductive Tells (settings : TableSettings) (op : Operation) :
    List Statement → List Reply → Phase → Prop
  | waiting : Tells settings op [] [] .waiting
  | installing {before rest : List InstallStep} {step : InstallStep} {replies : List Reply} :
    InstallStep.all settings = before ++ step :: rest → Answered before replies →
      Tells settings op ((before ++ [step]).map .install) replies (.installing step rest)
  | acting {steps : List InstallStep} {replies : List Reply} {r : Store.Request} :
    op = .request r → steps = [] ∨ steps = InstallStep.all settings → Answered steps replies →
      Tells settings op (steps.map .install ++ [.request r]) replies .acting
  | passed {steps : List InstallStep} {replies : List Reply} {result : Result} :
    steps = [] ∨ steps = InstallStep.all settings → Answered steps replies →
      Tells settings op (steps.map .install) replies (.finished result)
  | stopped {before rest : List InstallStep} {step : InstallStep} {replies : List Reply}
    {e : LinkError} :
    InstallStep.all settings = before ++ step :: rest → Answered before replies →
      Tells settings op ((before ++ [step]).map .install) (replies ++ [.failed e])
        (.finished (.error e.inInstall))
  | served {steps : List InstallStep} {replies : List Reply} {r : Store.Request} {reply : Reply}
    {result : Result} :
    op = .request r → steps = [] ∨ steps = InstallStep.all settings → Answered steps replies →
      Tells settings op (steps.map .install ++ [.request r]) (replies ++ [reply]) (.finished result)

theorem Tells.passGate {settings : TableSettings} {op : Operation} {steps : List InstallStep}
    {replies : List Reply} (s : Session) (whole : steps = [] ∨ steps = InstallStep.all settings)
    (answered : Answered steps replies) :
    Tells settings op (steps.map .install ++ ((s.passGate op).inFlight? op).toList) replies
      (s.passGate op) := by
  have through (result : Result) : Tells settings op
      (steps.map .install ++ (Phase.inFlight? op (.finished result)).toList) replies
      (.finished result) := by
    have nothing : Phase.inFlight? op (.finished result) = none := by cases op <;> rfl
    rw [nothing, Option.toList_none, List.append_nil]
    exact .passed whole answered
  cases op with
  | install => exact through _
  | request r =>
    rw [Session.passGate]
    split
    next => exact through _
    next => exact .acting rfl whole answered

def Installing (t : Traffic) (i : Nat) : Prop :=
  ∃ c, t.callers[i]? = some c ∧ c.phase.IsInstalling

structure Sound (settings : TableSettings) (t : Traffic) : Prop where
  stable : t.session.settings = settings
  installed : t.session.gate = .installed ↔ Migrated t.log
  installing : t.session.gate = .installing ↔ ∃ i, t.Installing i
  alone : ∀ i j, t.Installing i → t.Installing j → i = j
  ordered : Ordered t.log
  tells : ∀ i c, t.callers[i]? = some c →
    Tells settings c.operation (asked i t.log) (heard i t.log) c.phase
  absent : ∀ i, t.callers.length ≤ i → asked i t.log = [] ∧ heard i t.log = []

section Steps
variable {settings : TableSettings} {t : Traffic} {i : Nat} {c : Caller} {p : Phase}
  {session : Session} {reply : Option Reply}

def withReply (i : Nat) (reply : Option Reply) (log : List TrafficEntry) : List TrafficEntry :=
  reply.toList.map (.answered i) ++ log

def goOn (t : Traffic) (i : Nat) (c : Caller) (reply : Option Reply) (p : Phase)
    (session : Session) : Traffic :=
  { t with log := withReply i reply t.log }.move i c p session

theorem migrated_withReply {r : Reply} {log : List TrafficEntry} :
    Migrated (withReply i (some r) log) ↔
      (r.IsDone ∧ (asked i log).getLast? = some (.install .commit)) ∨ Migrated log :=
  migrated_answered

theorem asked_goOn (t : Traffic) (i j : Nat) (c : Caller) (reply : Option Reply) (p : Phase)
    (session : Session) :
    asked j (t.goOn i c reply p session).log =
      if i = j then asked j t.log ++ (p.inFlight? c.operation).toList else asked j t.log := by
  simp only [goOn, move, withReply]
  cases reply <;> cases p.inFlight? c.operation <;> simp [asked]

theorem heard_goOn (t : Traffic) (i j : Nat) (c : Caller) (reply : Option Reply) (p : Phase)
    (session : Session) :
    heard j (t.goOn i c reply p session).log =
      if i = j then heard j t.log ++ reply.toList else heard j t.log := by
  simp only [goOn, move, withReply]
  cases reply <;> cases p.inFlight? c.operation <;> simp [heard]

theorem migrated_goOn (t : Traffic) (i : Nat) (c : Caller) (reply : Option Reply) (p : Phase)
    (session : Session) :
    Migrated (t.goOn i c reply p session).log ↔ Migrated (withReply i reply t.log) := by
  simp only [goOn, move]
  cases p.inFlight? c.operation <;> simp

theorem callers_goOn (found : t.callers[i]? = some c) (j : Nat) :
    (t.goOn i c reply p session).callers[j]? =
      if i = j then some { c with phase := p } else t.callers[j]? := by
  have inside := (List.getElem?_eq_some_iff.mp found).1
  simp only [goOn, move, List.getElem?_set, inside, if_true]

theorem installing_goOn (found : t.callers[i]? = some c) (j : Nat) :
    (t.goOn i c reply p session).Installing j ↔
      if i = j then p.IsInstalling else t.Installing j := by
  rw [Installing, callers_goOn found]
  split <;> simp [Installing]

theorem exists_installing_goOn (found : t.callers[i]? = some c) :
    (∃ j, (t.goOn i c reply p session).Installing j) ↔
      p.IsInstalling ∨ ∃ j, j ≠ i ∧ t.Installing j := by
  simp only [installing_goOn found]
  constructor
  · rintro ⟨j, work⟩
    split at work
    next => exact .inl work
    next other => exact .inr ⟨j, Ne.symm other, work⟩
  · rintro (work | ⟨j, other, work⟩)
    · exact ⟨i, by rwa [if_pos rfl]⟩
    · exact ⟨j, by rwa [if_neg other.symm]⟩

theorem alone_goOn (found : t.callers[i]? = some c)
    (before : ∀ j k, t.Installing j → t.Installing k → j = k)
    (alone : p.IsInstalling → ∀ j, j ≠ i → ¬t.Installing j) (j k : Nat) :
    (t.goOn i c reply p session).Installing j → (t.goOn i c reply p session).Installing k →
      j = k := by
  simp only [installing_goOn found]
  by_cases here : i = j <;> by_cases there : i = k
  · exact fun _ _ => here.symm.trans there
  · rw [if_pos here, if_neg there]
    exact fun work other => absurd other (alone work k (Ne.symm there))
  · rw [if_neg here, if_pos there]
    exact fun other work => absurd other (alone work j (Ne.symm here))
  · rw [if_neg here, if_neg there]
    exact before j k

theorem ordered_goOn (ordered : Ordered t.log)
    (fits : ∀ s, p.inFlight? c.operation = some s →
      (s.IsInstall ↔ ¬Migrated (withReply i reply t.log))) :
    Ordered (t.goOn i c reply p session).log := by
  have before : Ordered (withReply i reply t.log) := by
    cases reply with
    | none => exact ordered
    | some r => exact ordered_cons ordered (by simp)
  simp only [goOn, move]
  cases sent : p.inFlight? c.operation with
  | none => exact before
  | some s =>
    refine ordered_cons before ?_
    rintro _ _ ⟨⟩
    exact fits s sent

theorem Sound.goOn (h : Sound settings t) (found : t.callers[i]? = some c)
    (stable : session.settings = settings)
    (tells : Tells settings c.operation (asked i t.log ++ (p.inFlight? c.operation).toList)
      (heard i t.log ++ reply.toList) p)
    (installed : session.gate = .installed ↔ Migrated (withReply i reply t.log))
    (installing : session.gate = .installing ↔ p.IsInstalling ∨ ∃ j, j ≠ i ∧ t.Installing j)
    (alone : p.IsInstalling → ∀ j, j ≠ i → ¬t.Installing j)
    (fits : ∀ s, p.inFlight? c.operation = some s →
      (s.IsInstall ↔ ¬Migrated (withReply i reply t.log))) :
    Sound settings (t.goOn i c reply p session) where
  stable := stable
  installed := installed.trans (migrated_goOn ..).symm
  installing := installing.trans (exists_installing_goOn found).symm
  alone := alone_goOn found h.alone alone
  ordered := ordered_goOn h.ordered fits
  tells := by
    intro j c'
    rw [callers_goOn found, asked_goOn, heard_goOn]
    split
    next here =>
      rintro ⟨⟩
      exact here ▸ tells
    next => exact h.tells j c'
  absent := by
    intro j outside
    have inside := (List.getElem?_eq_some_iff.mp found).1
    have length : (t.goOn i c reply p session).callers.length = t.callers.length :=
      List.length_set
    rw [length] at outside
    have other : i ≠ j := by omega
    rw [asked_goOn, heard_goOn, if_neg other, if_neg other]
    exact h.absent j outside

theorem inFlight?_passGate {s : Session} {op : Operation} {statement : Statement}
    (h : (s.passGate op).inFlight? op = some statement) : ¬statement.IsInstall := by
  cases op with
  | install => cases h
  | request r =>
    rw [Session.passGate] at h
    split at h <;> cases h
    exact id

theorem not_isInstalling_passGate {s : Session} {op : Operation} :
    ¬(s.passGate op).IsInstalling := by
  cases op with
  | install => exact id
  | request r =>
    rw [Session.passGate]
    split <;> exact id

theorem inFlight?_finished (op : Operation) (result : Result) :
    Phase.inFlight? op (.finished result) = none := by
  cases op <;> rfl

theorem inFlight?_installing (op : Operation) (step : InstallStep) (rest : List InstallStep) :
    Phase.inFlight? op (.installing step rest) = some (.install step) := by
  cases op <;> rfl

theorem Sound.idle (h : Sound settings t) (gate : t.session.gate ≠ .installing) (j : Nat) :
    ¬t.Installing j :=
  fun work => gate (h.installing.mpr ⟨j, work⟩)

theorem Sound.silent (h : Sound settings t) (found : t.callers[i]? = some c)
    (waiting : c.phase = .waiting) : asked i t.log = [] ∧ heard i t.log = [] := by
  have tells := h.tells i c found
  rw [waiting] at tells
  generalize asks : asked i t.log = statements at tells
  generalize hears : heard i t.log = replies at tells
  cases tells
  exact ⟨rfl, rfl⟩

theorem Sound.passes (h : Sound settings t) (found : t.callers[i]? = some c)
    (waiting : c.phase = .waiting) (gate : t.session.gate = .installed) :
    Sound settings (t.goOn i c none (t.session.passGate c.operation) t.session) := by
  obtain ⟨asks, hears⟩ := h.silent found waiting
  refine h.goOn found h.stable ?_ h.installed ?_ (absurd · not_isInstalling_passGate) ?_
  · rw [asks, hears]
    exact .passGate _ (.inl rfl) answered_nil
  · simp [gate, not_isInstalling_passGate, h.idle]
  · intro s sends
    exact iff_of_false (inFlight?_passGate sends) (not_not_intro (h.installed.mp gate))

theorem Sound.refused (h : Sound settings t) (found : t.callers[i]? = some c)
    (waiting : c.phase = .waiting) (gate : t.session.gate = .missing) :
    Sound settings (t.goOn i c none (.finished (.error LinkError.poolClosed.inInstall))
      t.session) := by
  obtain ⟨asks, hears⟩ := h.silent found waiting
  refine h.goOn found h.stable ?_ h.installed ?_ False.elim ?_
  · rw [asks, hears, inFlight?_finished]
    exact .passed (.inl rfl) answered_nil
  · simp [gate, Phase.IsInstalling, h.idle]
  · simp [inFlight?_finished]

theorem Sound.begins (h : Sound settings t) (found : t.callers[i]? = some c)
    (waiting : c.phase = .waiting) (gate : t.session.gate = .missing) :
    Sound settings (t.goOn i c none (.installing .begin_ (InstallStep.rest t.session.settings))
      { t.session with gate := .installing }) := by
  obtain ⟨asks, hears⟩ := h.silent found waiting
  have missing : ¬Migrated t.log := by simp [← h.installed, gate]
  refine h.goOn found h.stable ?_ ?_ ?_ ?_ ?_
  · rw [asks, hears, h.stable, inFlight?_installing]
    exact .installing rfl answered_nil
  · exact iff_of_false nofun missing
  · simp [Phase.IsInstalling]
  · simp [gate, h.idle]
  · rw [inFlight?_installing]
    rintro _ ⟨⟩
    exact iff_of_true trivial missing

theorem Sound.enter (h : Sound settings t) (found : t.callers[i]? = some c)
    (waiting : c.phase = .waiting)
    (enters : t.session.enter? c.operation = some (p, session)) :
    Sound settings (t.goOn i c none p session) := by
  unfold Session.enter? at enters
  split at enters
  next gate =>
    cases enters
    exact h.passes found waiting gate
  next => cases enters
  next gate =>
    split at enters
    next =>
      cases enters
      exact h.refused found waiting gate
    next =>
      cases enters
      exact h.begins found waiting gate

theorem Sound.served (h : Sound settings t) (found : t.callers[i]? = some c)
    (acting : c.phase = .acting) {r : Reply} {result : Result} :
    Sound settings (t.goOn i c (some r) (.finished result) t.session) := by
  have tells := h.tells i c found
  rw [acting] at tells
  generalize asks : asked i t.log = statements at tells
  generalize hears : heard i t.log = replies at tells
  cases tells with
  | acting own whole answered =>
    refine h.goOn found h.stable ?_ ?_ ?_ False.elim ?_
    · rw [asks, hears, inFlight?_finished, Option.toList_none, List.append_nil]
      exact .served own whole answered
    · simp [migrated_withReply, asks, h.installed]
    · have idle : ¬t.Installing i := by simp [Installing, found, acting, Phase.IsInstalling]
      rw [h.installing]
      simp only [Phase.IsInstalling, false_or]
      exact exists_congr fun j => (and_iff_right_of_imp fun work (same : j = i) =>
        idle (same ▸ work)).symm
    · simp [inFlight?_finished]

theorem Sound.gate (h : Sound settings t) (work : t.Installing i) :
    t.session.gate = .installing :=
  h.installing.mpr ⟨i, work⟩

theorem Sound.others (h : Sound settings t) (work : t.Installing i) (j : Nat) (other : j ≠ i) :
    ¬t.Installing j :=
  fun work' => other (h.alone j i work' work)

section Replies
variable {step : InstallStep} {rest : List InstallStep}

theorem installing_of_phase (found : t.callers[i]? = some c)
    (phase : c.phase = .installing step rest) : t.Installing i :=
  ⟨c, found, phase ▸ trivial⟩

theorem Sound.stepFails (h : Sound settings t) (found : t.callers[i]? = some c)
    (phase : c.phase = .installing step rest) (e : LinkError) :
    Sound settings (t.goOn i c (some (.failed e)) (.finished (.error e.inInstall))
      { t.session with gate := .missing }) := by
  have work := installing_of_phase found phase
  have tells := h.tells i c found
  rw [phase] at tells
  generalize asks : asked i t.log = statements at tells
  generalize hears : heard i t.log = replies at tells
  cases tells with
  | installing order answered =>
    refine h.goOn found h.stable ?_ ?_ ?_ False.elim ?_
    · rw [asks, hears, inFlight?_finished, Option.toList_none, List.append_nil]
      exact .stopped order answered
    · simp [migrated_withReply, Reply.IsDone, ← h.installed, h.gate work]
    · simpa [Phase.IsInstalling] using h.others work
    · simp [inFlight?_finished]

theorem Sound.stepDone (h : Sound settings t) (found : t.callers[i]? = some c)
    {next : InstallStep} (phase : c.phase = .installing step (next :: rest)) (affected : Nat)
    (rows : List JobRow) :
    Sound settings
      (t.goOn i c (some (.done affected rows)) (.installing next rest) t.session) := by
  have work := installing_of_phase found phase
  have tells := h.tells i c found
  rw [phase] at tells
  generalize asks : asked i t.log = statements at tells
  generalize hears : heard i t.log = replies at tells
  cases tells with
  | installing order answered =>
    have notYet : ¬Migrated (withReply i (some (.done affected rows)) t.log) := by
      simp [migrated_withReply, asks, InstallStep.ne_commit order, ← h.installed, h.gate work]
    refine h.goOn found h.stable ?_ ?_ ?_ ?_ ?_
    · rw [asks, hears]
      have next := answered.snoc step (r := .done affected rows) trivial
      have told : Tells settings c.operation _ _ _ := .installing (by simpa using order) next
      rw [List.map_append] at told
      rwa [inFlight?_installing]
    · exact iff_of_false (by simp [h.gate work]) notYet
    · simp [Phase.IsInstalling, h.gate work]
    · exact fun _ => h.others work
    · simp [inFlight?_installing, Statement.IsInstall, notYet]

theorem Sound.lastStepDone (h : Sound settings t) (found : t.callers[i]? = some c)
    (phase : c.phase = .installing step []) (affected : Nat) (rows : List JobRow) :
    let installed := { t.session with gate := .installed }
    Sound settings (t.goOn i c (some (.done affected rows)) (installed.passGate c.operation)
      installed) := by
  have work := installing_of_phase found phase
  have tells := h.tells i c found
  rw [phase] at tells
  generalize asks : asked i t.log = statements at tells
  generalize hears : heard i t.log = replies at tells
  cases tells with
  | installing order answered =>
    have done : Migrated (withReply i (some (.done affected rows)) t.log) := by
      simp [migrated_withReply, Reply.IsDone, asks, InstallStep.eq_commit order]
    refine h.goOn found h.stable ?_ ?_ ?_ (absurd · not_isInstalling_passGate) ?_
    · rw [asks, hears]
      exact .passGate _ (.inr order.symm) (answered.snoc step trivial)
    · exact iff_of_true rfl done
    · simpa [not_isInstalling_passGate] using h.others work
    · intro s sends
      exact iff_of_false (inFlight?_passGate sends) (not_not_intro done)

end Replies

theorem Sound.receive (h : Sound settings t) (found : t.callers[i]? = some c) {r : Reply}
    (receives : t.session.receive? c.operation c.phase r = some (p, session)) :
    Sound settings (t.goOn i c (some r) p session) := by
  generalize phase : c.phase = before at receives
  unfold Session.receive? at receives
  split at receives
  next step rest e =>
    cases receives
    exact h.stepFails found phase e
  next step next rest affected rows =>
    cases receives
    exact h.stepDone found phase affected rows
  next step affected rows =>
    cases receives
    exact h.lastStepDone found phase affected rows
  next e =>
    cases receives
    exact h.served found phase
  next affected rows =>
    split at receives
    next =>
      cases receives
      exact h.served found phase
    next => cases receives
  next => cases receives

def Leads (t : Traffic) (t' : Traffic) : Event → Prop
  | .arrive op => { t with callers := t.callers ++ [{ operation := op }] } = t'
  | .enter i => ∃ c p session, t.callers[i]? = some c ∧ c.phase = .waiting ∧
      t.session.enter? c.operation = some (p, session) ∧ t.goOn i c none p session = t'
  | .reply i r => ∃ c p session, t.callers[i]? = some c ∧
      t.session.receive? c.operation c.phase r = some (p, session) ∧
      t.goOn i c (some r) p session = t'
  | .close => { t with session := t.session.close } = t'

theorem step_eq_some_iff {t' : Traffic} {e : Event} : t.step e = some t' ↔ t.Leads t' e := by
  cases e with
  | arrive op => simp [step, Leads]
  | close => simp [step, Leads]
  | enter i =>
    simp only [step, Leads, Option.bind_eq_bind, Option.bind_eq_some_iff]
    refine ⟨?_, ?_⟩
    · rintro ⟨c, found, h⟩
      split at h
      next waiting =>
        obtain ⟨⟨p, session⟩, enters, h⟩ := Option.bind_eq_some_iff.mp h
        exact ⟨c, p, session, found, waiting, enters, Option.some.inj h⟩
      next => cases h
    · rintro ⟨c, p, session, found, waiting, enters, rfl⟩
      refine ⟨c, found, ?_⟩
      rw [waiting]
      simp only [enters]
      rfl
  | reply i r =>
    simp only [step, Leads, Option.bind_eq_bind, Option.bind_eq_some_iff, Prod.exists]
    refine ⟨?_, ?_⟩
    · rintro ⟨c, found, p, session, receives, h⟩
      exact ⟨c, p, session, found, receives, Option.some.inj h⟩
    · rintro ⟨c, p, session, found, receives, rfl⟩
      exact ⟨c, found, p, session, receives, rfl⟩

theorem Sound.arrive (h : Sound settings t) (op : Operation) :
    Sound settings { t with callers := t.callers ++ [{ operation := op }] } := by
  have found (j : Nat) : (t.callers ++ [{ operation := op }])[j]? =
      if j = t.callers.length then some { operation := op } else t.callers[j]? := by
    grind
  have works (j : Nat) :
      Installing { t with callers := t.callers ++ [{ operation := op }] } j ↔ t.Installing j := by
    rw [Installing, Installing, found]
    split
    next last => simp [Phase.IsInstalling, last]
    next => rfl
  refine ⟨h.stable, h.installed, ?_, ?_, h.ordered, ?_, ?_⟩
  · simp only [works]
    exact h.installing
  · simp only [works]
    exact h.alone
  · intro j c
    rw [found]
    split
    next last =>
      rintro ⟨⟩
      obtain ⟨asks, hears⟩ := h.absent j (Nat.le_of_eq last.symm)
      rw [asks, hears]
      exact .waiting
    next => exact h.tells j c
  · intro j outside
    rw [List.length_append] at outside
    exact h.absent j (Nat.le_of_succ_le outside)

theorem Sound.step (h : Sound settings t) {t' : Traffic} {e : Event} (step : t.step e = some t') :
    Sound settings t' := by
  have leads := step_eq_some_iff.mp step
  cases e with
  | enter i =>
    obtain ⟨c, p, session, found, waiting, enters, rfl⟩ := leads
    exact h.enter found waiting enters
  | reply i r =>
    obtain ⟨c, p, session, found, receives, rfl⟩ := leads
    exact h.receive found receives
  | close =>
    cases leads
    exact { h with }
  | arrive op =>
    cases leads
    exact h.arrive op

theorem Sound.run (h : Sound settings t) {events : List Event} {t' : Traffic}
    (run : t.run? events = some t') : Sound settings t' := by
  induction events generalizing t with
  | nil =>
    cases run
    exact h
  | cons e rest ih =>
    obtain ⟨between, first, later⟩ := Option.bind_eq_some_iff.mp run
    exact ih (h.step first) later

theorem sound_start (settings : TableSettings) : Sound settings { session := { settings } } where
  stable := rfl
  installed := iff_of_false nofun not_migrated_nil
  installing := by simp [Installing]
  alone := by simp [Installing]
  ordered := by
    intro after i s before eq
    cases after <;> cases eq
  tells := by simp
  absent _ _ := ⟨rfl, rfl⟩

structure Conversation (settings : TableSettings) (c : Caller) (statements : List Statement)
    (replies : List Reply) : Prop where
  /-- The steps that create the table in their order, or none of them, and then the caller's own. -/
  inOrder : statements <+: c.operation.statements ∨
    statements <+: (InstallStep.all settings).map .install ++ c.operation.statements
  /-- A statement is sent when the one before it has been answered. -/
  inTurn : replies.length ≤ statements.length ∧ statements.length ≤ replies.length + 1
  stops : ∀ before e after, replies = before ++ .failed e :: after →
    after = [] ∧ statements.length = replies.length
  /-- A caller whose step failed answers with that failure and sends no statement of its own. -/
  fails : ∀ step e, (.install step, .failed e) ∈ statements.zip replies →
    c.phase = .finished (.error e.inInstall) ∧ ∀ r, .request r ∉ statements

theorem Answered.failed_notMem {steps : List InstallStep} {replies : List Reply}
    (h : Answered steps replies) (e : LinkError) : .failed e ∉ replies :=
  fun failed => h.2 _ failed

theorem Answered.eq_nil_of_failed {steps : List InstallStep} {replies before after : List Reply}
    {r : Reply} {e : LinkError} (h : Answered steps replies)
    (eq : replies ++ [r] = before ++ .failed e :: after) : after = [] := by
  obtain rfl | ⟨after, last, rfl⟩ := List.eq_nil_or_concat after
  · rfl
  · rw [List.concat_eq_append, ← List.cons_append, ← List.append_assoc] at eq
    refine absurd ?_ (h.failed_notMem e)
    rw [(List.append_inj' eq rfl).1]
    simp

theorem conversation_of_answered {statements : List Statement} {replies : List Reply}
    {steps : List InstallStep}
    (inOrder : statements <+: c.operation.statements ∨
      statements <+: (InstallStep.all settings).map .install ++ c.operation.statements)
    (answered : Answered steps replies)
    (inTurn : steps.length ≤ statements.length ∧ statements.length ≤ steps.length + 1) :
    Conversation settings c statements replies where
  inOrder := inOrder
  inTurn := by rwa [answered.1]
  stops := by
    rintro _ e _ rfl
    exact absurd (by simp) (answered.failed_notMem e)
  fails _ e both := absurd (List.of_mem_zip both).2 (answered.failed_notMem e)

theorem prefix_of_order {before rest : List InstallStep} {step : InstallStep} {own : List Statement}
    (order : InstallStep.all settings = before ++ step :: rest) :
    (before ++ [step]).map .install <+: (InstallStep.all settings).map .install ++ own :=
  ⟨rest.map .install ++ own, by simp [order]⟩

theorem prefix_of_whole {steps : List InstallStep} {own : List Statement}
    (whole : steps = [] ∨ steps = InstallStep.all settings) :
    steps.map .install ++ own <+: own ∨
      steps.map .install ++ own <+: (InstallStep.all settings).map .install ++ own := by
  obtain rfl | rfl := whole
  · exact .inl List.prefix_rfl
  · exact .inr List.prefix_rfl

theorem Tells.conversation {statements : List Statement} {replies : List Reply}
    (h : Tells settings c.operation statements replies c.phase) :
    Conversation settings c statements replies := by
  generalize phase : c.phase = p at h
  cases h with
  | waiting => exact conversation_of_answered (.inl List.nil_prefix) answered_nil (by simp)
  | installing order answered =>
    exact conversation_of_answered (.inr (prefix_of_order order)) answered (by simp)
  | acting own whole answered =>
    refine conversation_of_answered ?_ answered (by simp)
    rw [own]
    exact prefix_of_whole whole
  | passed whole answered =>
    refine conversation_of_answered ?_ answered (by simp)
    exact (prefix_of_whole whole).imp (List.prefix_append _ _).trans (List.prefix_append _ _).trans
  | stopped order answered =>
    refine ⟨.inr (prefix_of_order order), by simp [answered.1], ?_, ?_⟩
    · exact fun _ _ _ eq => ⟨answered.eq_nil_of_failed eq, by simp [answered.1]⟩
    · intro step e both
      have last := (List.mem_append.mp (List.of_mem_zip both).2).resolve_left
        (answered.failed_notMem e)
      cases List.mem_singleton.mp last
      exact ⟨phase, by simp⟩
  | served own whole answered =>
    refine ⟨?_, by simp [answered.1], ?_, ?_⟩
    · rw [own]
      exact prefix_of_whole whole
    · exact fun _ _ _ eq => ⟨answered.eq_nil_of_failed eq, by simp [answered.1]⟩
    · intro step e both
      rw [List.zip_append (by simp [answered.1])] at both
      obtain before | last := List.mem_append.mp both
      · exact absurd (List.of_mem_zip before).2 (answered.failed_notMem e)
      · simp at last

theorem Sound.step_fails (h : Sound settings t) (work : t.Installing i) (e : LinkError) :
    ∃ t', t.step (.reply i (.failed e)) = some t' ∧ ¬Migrated t'.log ∧ ∀ j, ¬t'.Installing j := by
  have missing : ¬Migrated t.log := by simp [← h.installed, h.installing.mpr ⟨i, work⟩]
  have alone := h.alone i
  obtain ⟨c, found, installs⟩ := id work
  cases phase : c.phase with
  | installing step rest =>
    have receives : t.session.receive? c.operation c.phase (.failed e) =
        some (.finished (.error e.inInstall), { t.session with gate := .missing }) := by
      rw [phase]
      rfl
    refine ⟨_, step_eq_some_iff.mpr ⟨c, _, _, found, receives, rfl⟩, ?_, fun j => ?_⟩
    · simpa [migrated_goOn, migrated_withReply, Reply.IsDone] using missing
    · rw [installing_goOn found]
      split
      next => exact id
      next other => exact fun work' => other (alone j work work')
  | _ => simp [phase, Phase.IsInstalling] at installs

theorem Sound.step_begins (h : Sound settings t) (missing : ¬Migrated t.log)
    (idle : ∀ j, ¬t.Installing j) (found : t.callers[i]? = some c) (waiting : c.phase = .waiting) :
    ∃ t', t.step (.enter i) = some t' ∧
      if t.session.closed then t'.log = t.log ∧ t'.callers[i]? =
        some { c with phase := .finished (.error LinkError.poolClosed.inInstall) }
      else t'.log = .sent i (.install .begin_) :: t.log := by
  have gate : t.session.gate = .missing := by
    cases gate : t.session.gate with
    | missing => rfl
    | installing => exact absurd (h.installing.mp gate) (by simpa using idle)
    | installed => exact absurd (h.installed.mp gate) missing
  cases closed : t.session.closed with
  | true =>
    have enters : t.session.enter? c.operation =
        some (.finished (.error LinkError.poolClosed.inInstall), t.session) := by
      simp [Session.enter?, gate, closed]
    refine ⟨_, step_eq_some_iff.mpr ⟨c, _, _, found, waiting, enters, rfl⟩, ?_⟩
    rw [if_pos rfl, callers_goOn found, if_pos rfl]
    simp [Traffic.goOn, move, withReply, inFlight?_finished]
  | false =>
    have enters : t.session.enter? c.operation =
        some (.installing .begin_ (InstallStep.rest t.session.settings),
          { t.session with gate := .installing }) := by
      simp [Session.enter?, gate, closed]
    refine ⟨_, step_eq_some_iff.mpr ⟨c, _, _, found, waiting, enters, rfl⟩, ?_⟩
    simp [Traffic.goOn, move, withReply, inFlight?_installing]

/-- For callers of one session, in any number and order and with any replies: at most one of them
creates the table at a time; a statement that creates it is sent just while none has succeeded in
that, and any other only after; each caller asks in order and stops at the first failure, which is
its answer; and then the next caller begins again. -/
theorem installs_one_at_a_time {events : List Event}
    (run : run? { session := { settings } } events = some t) :
    (∀ i j, t.Installing i → t.Installing j → i = j) ∧
    (∀ after i s before, t.log = after ++ .sent i s :: before →
      (s.IsInstall ↔ ¬Migrated before)) ∧
    (∀ i c, t.callers[i]? = some c → Conversation settings c (asked i t.log) (heard i t.log)) ∧
    (∀ i e, t.Installing i → ∃ t', t.step (.reply i (.failed e)) = some t' ∧
      ¬Migrated t'.log ∧ ∀ j, ¬t'.Installing j) ∧
    (¬Migrated t.log → (∀ i, ¬t.Installing i) →
      ∀ i c, t.callers[i]? = some c → c.phase = .waiting → ∃ t', t.step (.enter i) = some t' ∧
        if t.session.closed then t'.log = t.log ∧ t'.callers[i]? =
          some { c with phase := .finished (.error LinkError.poolClosed.inInstall) }
        else t'.log = .sent i (.install .begin_) :: t.log) := by
  have sound := (sound_start settings).run run
  refine ⟨sound.alone, sound.ordered, ?_, ?_, ?_⟩
  · exact fun i c found => (sound.tells i c found).conversation
  · exact fun i e work => sound.step_fails work e
  · exact fun missing idle i c => sound.step_begins missing idle

def secondTry : List Event :=
  let done : Reply := .done 0 []
  [.arrive .install, .arrive (.request (.prune .epoch)), .enter 0, .reply 0 done,
    .reply 0 (.failed (.other "the worker crashed")), .enter 1,
    .reply 1 done, .reply 1 done, .reply 1 done,
    .reply 1 done, .reply 1 done, .reply 1 (.done 3 [])]

theorem secondTry_installs : ∃ t,
    run? { session := { settings := { connection := "database" } } } secondTry = some t ∧
      asked 0 t.log = [.install .begin_, .install .lock] ∧
      asked 1 t.log = (InstallStep.all t.session.settings).map .install ++
        [.request (.prune .epoch)] ∧
      ∀ i c, t.callers[i]? = some c →
        Conversation { connection := "database" } c (asked i t.log) (heard i t.log) :=
  ⟨_, rfl, rfl, rfl, (installs_one_at_a_time (show run? _ secondTry = some _ from rfl)).2.2.1⟩

end Steps
end Traffic
end DelayedJobs
