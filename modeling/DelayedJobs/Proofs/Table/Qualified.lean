import DelayedJobs.Command.Basic
import DelayedJobs.Proofs.Table.Identifier
import DelayedJobs.Proofs.Table.Install
import DelayedJobs.Proofs.Text.Words
import Mathlib.Data.List.Chain

/-!
What is sent to a database. A session is made for sound settings only. Whatever is asked of it then,
each statement that it sends is one of a few that are fixed once and for all, with the schema in
front of the name of the table wherever that stands and nowhere else; to this comes the one that
creates the schema. The schema is a single word of the text, so it can bring nothing else into it.
-/

namespace DelayedJobs

open Text

theorem Identifier.isWordChar_of_isPart {c : Char} (part : isPart c = true) :
    isWordChar c = true := by
  rw [isPart_iff] at part
  have all : (lowerCase ++ digits ++ ['_']).all isWordChar = true := by decide
  exact List.all_eq_true.mp all c part

theorem Identifier.of_isPlain {name : String} (plain : isPlain name = true) :
    name.toList ≠ [] ∧ ∀ c ∈ name.toList, isWordChar c = true := by
  rw [isPlain] at plain
  split at plain
  next => cases plain
  next c rest spelled =>
    simp only [Bool.and_eq_true, List.all_eq_true] at plain
    have first : isPart c = true := by simp [isPart, plain.1.2]
    rw [spelled]
    exact ⟨List.cons_ne_nil _ _, List.forall_mem_cons.mpr
      ⟨isWordChar_of_isPart first, fun d member => isWordChar_of_isPart (plain.2 d member)⟩⟩

def qualified (schema : Option String) (word : List Char) : List (List Char) :=
  if word = TableSettings.baseName.toList then
    schema.elim [word] fun name => [name.toList, ['.'], word]
  else [word]

namespace Piece

def chars (qualifier : String) : Piece → List Char
  | text s => s.toList
  | table => qualifier.toList ++ TableSettings.baseName.toList

theorem toList_render (qualifier : String) (pieces : List Piece) :
    (render qualifier pieces).toList = pieces.flatMap (chars qualifier) := by
  induction pieces with
  | nil => rfl
  | cons p rest ih =>
    rw [List.flatMap_cons, ← ih]
    cases p <;> simp [render, chars]

/-- No word runs across a seam between two pieces, and the name of the table stands only in places
of its own. -/
structure Tidy (pieces : List Piece) : Prop where
  seams : pieces.IsChain fun a b => Apart (a.chars "") (b.chars "")
  some_ : ∀ p ∈ pieces, p.chars "" ≠ []
  places : ∀ p ∈ pieces, p = .table ∨ TableSettings.baseName.toList ∉ words (p.chars "")

section Schema
variable {s : TableSettings} {pieces : List Piece} {a b : Piece}

theorem words_table (sound : ∀ name ∈ s.schema, Identifier.isPlain name = true) :
    words (table.chars s.qualifier) = qualified s.schema TableSettings.baseName.toList := by
  have base : words TableSettings.baseName.toList = [TableSettings.baseName.toList] :=
    words_of_all (by decide) (List.all_eq_true.mp (by decide))
  rw [chars, TableSettings.qualifier, qualified, if_pos rfl]
  cases named : s.schema with
  | none => exact base
  | some name =>
    obtain ⟨some_, all⟩ := Identifier.of_isPlain (sound name named)
    have before : Apart name.toList ['.'] := fun c _ d first => by
      cases first
      exact .inr rfl
    have behind : Apart (name.toList ++ ['.']) TableSettings.baseName.toList := fun c last d _ => by
      rw [List.getLast?_append_of_ne_nil _ (List.cons_ne_nil _ _)] at last
      cases last
      exact .inl rfl
    have dotted : (name ++ ".").toList = name.toList ++ ['.'] := String.toList_append
    rw [Option.elim_some, dotted, words_append behind, words_append before,
      words_of_all some_ all, base]
    rfl

theorem apart_chars (qualifier : String) (apart : Apart (a.chars "") (b.chars "")) :
    Apart (a.chars qualifier) (b.chars qualifier) := by
  have last : (a.chars qualifier).getLast? = (a.chars "").getLast? := by
    cases a with
    | text => rfl
    | table => exact List.getLast?_append_of_ne_nil _ (by decide)
  intro c c_last d d_first
  rw [last] at c_last
  cases b with
  | text => exact apart c c_last d d_first
  | table => exact .inl ((apart c c_last 'l' rfl).resolve_right (by decide))

theorem chars_ne_nil (qualifier : String) (some_ : a.chars "" ≠ []) : a.chars qualifier ≠ [] := by
  cases a with
  | text => exact some_
  | table => exact List.append_ne_nil_of_right_ne_nil _ (by decide)

theorem words_flatMap (qualifier : String)
    (seams : pieces.IsChain fun a b => Apart (a.chars "") (b.chars ""))
    (some_ : ∀ p ∈ pieces, p.chars "" ≠ []) :
    words (pieces.flatMap (chars qualifier)) =
      pieces.flatMap fun p => words (p.chars qualifier) := by
  induction pieces with
  | nil => rfl
  | cons a rest ih =>
    rw [List.forall_mem_cons] at some_
    rw [List.flatMap_cons, List.flatMap_cons, ← ih seams.tail some_.2]
    refine words_append ?_
    cases rest with
    | nil => exact fun _ _ _ none_ => nomatch none_
    | cons b rest =>
      have next := apart_chars qualifier (List.isChain_cons_cons.mp seams).1
      have first : ((b :: rest).flatMap (chars qualifier)).head? = (b.chars qualifier).head? := by
        rw [List.flatMap_cons,
          List.head?_append_of_ne_nil _ (chars_ne_nil qualifier (some_.2 b (.head _)))]
      intro c c_last d d_first
      rw [first] at d_first
      exact next c c_last d d_first

/-- A schema goes in front of the name of the table and leaves every other word as it is. -/
theorem Tidy.words_render (h : Tidy pieces)
    (sound : ∀ name ∈ s.schema, Identifier.isPlain name = true) :
    words (render s.qualifier pieces).toList =
      (words (render "" pieces).toList).flatMap (qualified s.schema) := by
  rw [toList_render, toList_render, words_flatMap _ h.seams h.some_,
    words_flatMap _ h.seams h.some_, List.flatMap_assoc]
  refine List.flatMap_congr fun p member => ?_
  obtain rfl | elsewhere := h.places p member
  · have base : words (table.chars "") = [TableSettings.baseName.toList] := by decide
    rw [words_table sound, base, List.flatMap_singleton]
  · have kept : ∀ word ∈ words (p.chars ""), qualified s.schema word = [word] := by
      intro word found
      rw [qualified, if_neg]
      rintro rfl
      exact elsewhere found
    have same : p.chars s.qualifier = p.chars "" := by
      cases p with
      | text => rfl
      | table => exact absurd (by decide) elsewhere
    rw [same, List.flatMap_congr kept, List.flatMap_singleton']

end Schema
end Piece

namespace Statement
open Store.Request
variable {s : TableSettings} {statement : Statement}

def queries : List Query := [
  insertQuery, claimQuery, heldQuery [], heldQuery [(.status, .status .completed)],
  heldQuery [(.status, .status .ready), (.claimedBy, .null)],
  heldQuery [(.status, .status .failed)],
  pruneQuery]

/-- All that is ever sent, apart from what creates the schema. -/
def fixed : List (List Piece) :=
  queries.map Query.pieces ++
    [.begin_, .lock, .createTable, .createIndex, .commit].map InstallStep.pieces

theorem tidy_of_fixed : ∀ pieces ∈ fixed, Piece.Tidy pieces := by
  have tidy : ∀ pieces ∈ fixed, (pieces.IsChain fun a b => Apart (a.chars "") (b.chars "")) ∧
      ∀ p ∈ pieces, p.chars "" ≠ [] ∧
        (p = .table ∨ TableSettings.baseName.toList ∉ words (p.chars "")) := by
    decide +kernel
  exact fun pieces member => ⟨(tidy pieces member).1,
    fun p here => ((tidy pieces member).2 p here).1,
    fun p here => ((tidy pieces member).2 p here).2⟩

theorem pieces_mem_fixed (other : ∀ name, statement ≠ .install (.createSchema name)) :
    statement.pieces ∈ fixed := by
  cases statement with
  | request r =>
    have known : r.query ∈ queries := by
      cases r <;> simp [queries, query]
    exact List.mem_append_left _ (List.mem_map_of_mem known)
  | install step =>
    refine List.mem_append_right _ (List.mem_map_of_mem ?_)
    cases step with
    | createSchema name => exact absurd rfl (other name)
    | _ => simp

theorem text_createSchema (s : TableSettings) (name : String) :
    (Statement.install (.createSchema name)).text s = "CREATE SCHEMA IF NOT EXISTS " ++ name :=
  String.append_empty

theorem words_createSchema {name : String} (plain : Identifier.isPlain name = true) :
    words ((Statement.install (.createSchema name)).text s).toList =
      words "CREATE SCHEMA IF NOT EXISTS ".toList ++ [name.toList] := by
  obtain ⟨some_, all⟩ := Identifier.of_isPlain plain
  have apart : Apart "CREATE SCHEMA IF NOT EXISTS ".toList name.toList := fun c last d _ => by
    cases last
    exact .inl rfl
  rw [text_createSchema, String.toList_append, words_append apart, words_of_all some_ all]

/-- The text of a statement has the schema of the settings in it, and only where one belongs. -/
inductive Sound (s : TableSettings) : Statement → Prop
  | qualified {statement : Statement} {pieces : List Piece} : pieces ∈ fixed →
    statement.text { s with schema := none } = Piece.render "" pieces →
    statement.text s = Piece.render s.qualifier pieces →
    words (statement.text s).toList =
      (words (statement.text { s with schema := none }).toList).flatMap (qualified s.schema) →
    Sound s statement
  | createSchema {name : String} : s.schema = some name →
    (Statement.install (.createSchema name)).text s = "CREATE SCHEMA IF NOT EXISTS " ++ name →
    words ((Statement.install (.createSchema name)).text s).toList =
      words "CREATE SCHEMA IF NOT EXISTS ".toList ++ [name.toList] →
    Sound s (.install (.createSchema name))

theorem sound_of_fixed (sound : ∀ name ∈ s.schema, Identifier.isPlain name = true)
    (other : ∀ name, statement ≠ .install (.createSchema name)) : Sound s statement := by
  have member := pieces_mem_fixed other
  exact .qualified member rfl rfl ((tidy_of_fixed _ member).words_render sound)

theorem sound_of_install {step : InstallStep}
    (sound : ∀ name ∈ s.schema, Identifier.isPlain name = true) (sent : step ∈ InstallStep.all s) :
    Sound s (.install step) := by
  by_cases creates : ∃ name, step = .createSchema name
  · obtain ⟨name, rfl⟩ := creates
    have named : s.schema = some name := by
      simpa [InstallStep.all, InstallStep.rest] using sent
    exact .createSchema named (text_createSchema s name) (words_createSchema (sound name named))
  · exact sound_of_fixed sound fun name same => creates ⟨name, Statement.install.inj same⟩

end Statement

namespace Traffic
variable {settings : TableSettings} {t : Traffic} {i : Nat} {statement : Statement}

theorem mem_asked {log : List TrafficEntry} (sent : .sent i statement ∈ log) :
    statement ∈ asked i log := by
  induction log with
  | nil => cases sent
  | cons entry log ih =>
    obtain rfl | before := List.mem_cons.mp sent
    · simp
    · cases entry with
      | answered => exact ih before
      | sent j other =>
        rw [asked]
        split
        · exact List.mem_append_left _ (ih before)
        · exact ih before

theorem Sound.sent (h : Sound settings t) (sent : .sent i statement ∈ t.log) :
    (∃ r, statement = .request r) ∨
      ∃ step ∈ InstallStep.all settings, statement = .install step := by
  have member := mem_asked sent
  cases found : t.callers[i]? with
  | none =>
    rw [(h.absent i (List.getElem?_eq_none_iff.mp found)).1] at member
    cases member
  | some c =>
    have own (here : statement ∈ c.operation.statements) : ∃ r, statement = .request r := by
      cases operation : c.operation with
      | install => simp [operation, Operation.statements] at here
      | request r => exact ⟨r, by simpa [operation, Operation.statements] using here⟩
    obtain behind | whole := (h.tells i c found).conversation.inOrder
    · exact .inl (own (behind.subset member))
    · obtain installs | here := List.mem_append.mp (whole.subset member)
      · obtain ⟨step, step_mem, rfl⟩ := List.mem_map.mp installs
        exact .inr ⟨step, step_mem, rfl⟩
      · exact .inl (own here)

theorem sends_sound (sound : ∀ name ∈ settings.schema, Identifier.isPlain name = true)
    {events : List Event} (run : run? { session := { settings } } events = some t)
    (sent : .sent i statement ∈ t.log) : statement.Sound settings := by
  obtain ⟨r, rfl⟩ | ⟨step, step_mem, rfl⟩ := ((sound_start settings).run run).sent sent
  · exact Statement.sound_of_fixed sound nofun
  · exact Statement.sound_of_install sound step_mem

end Traffic

namespace TableSettings
variable {s : TableSettings}

theorem validate_of_fault? {text : String} (fault : s.fault? = some text) :
    s.validate = .error (.config text) := by
  rw [validate, fault]

theorem validate_eq_ok_iff : s.validate = .ok () ↔ s.fault? = none := by
  rw [validate]
  cases s.fault? <;> simp

theorem filter_not_isPlain_eq_none_iff {schema : Option String} :
    (schema.filter fun name => !Identifier.isPlain name) = none ↔
      ∀ name ∈ schema, Identifier.isPlain name = true := by
  simp [Option.filter_eq_none_iff]

theorem fault?_eq_none_iff : s.fault? = none ↔ s.connection ≠ "" ∧
    (∀ name ∈ s.schema, Identifier.isPlain name = true) ∧
      s.maxConnections ≠ 0 ∧ s.pruneBatch ≠ 0 := by
  rw [fault?, ← filter_not_isPlain_eq_none_iff]
  cases s.schema.filter fun name => !Identifier.isPlain name <;> grind

end TableSettings

namespace Session
variable {m : Type → Type} [Monad m]

/-- Connects like `connect`, over a call that finds out whether the database turns the connection
away. -/
def dial (call : m (Option LinkError)) (s : TableSettings) : m (Except StoreError Session) :=
  match s.validate with
  | .error e => pure (.error e)
  | .ok () => return connect s (← call)

theorem dial_pure [LawfulMonad m] (refusal : Option LinkError) (s : TableSettings) :
    dial (pure refusal : m _) s = pure (connect s refusal) := by
  rw [dial]
  split
  next unsound => rw [connect.eq_def, unsound]
  next => rw [pure_bind]

theorem eq_of_connect {s : TableSettings} {refusal : Option LinkError} {session : Session}
    (connected : connect s refusal = .ok session) : session = { settings := s } := by
  rw [connect.eq_def] at connected
  split at connected
  all_goals cases connected
  rfl

end Session

namespace DatabaseChoice
variable {c : DatabaseChoice}

def unchecked (c : DatabaseChoice) : TableSettings :=
  { connection := c.url, schema := c.schema, maxConnections := c.maxConnections }

theorem fault?_eq_none_iff : c.fault? = none ↔
    ¬ Text.allBlank c.url.toList = true ∧ c.unchecked.fault? = none := by
  have direct : c.fault? = none ↔ ¬ Text.allBlank c.url.toList = true ∧
      (∀ name ∈ c.schema, Identifier.isPlain name = true) ∧ c.maxConnections ≠ 0 := by
    rw [fault?, ← TableSettings.filter_not_isPlain_eq_none_iff]
    cases c.schema.filter fun name => !Identifier.isPlain name <;> grind
  have some_ (visible : ¬ Text.allBlank c.url.toList = true) : c.url ≠ "" := fun empty =>
    visible (by rw [empty]; rfl)
  have batch : (100 : UInt32) ≠ 0 := by decide
  rw [direct, TableSettings.fault?_eq_none_iff]
  exact ⟨fun ⟨visible, plain, most⟩ => ⟨visible, some_ visible, plain, most, batch⟩,
    fun ⟨visible, _, plain, most, _⟩ => ⟨visible, plain, most⟩⟩

theorem settings_eq_ok_iff {made : TableSettings} :
    c.settings = .ok made ↔ c.fault? = none ∧ made = c.unchecked := by
  rw [settings]
  cases c.fault? with
  | some => exact iff_of_false nofun (nomatch ·.1)
  | none => simp [unchecked, eq_comm]

theorem settings_eq_error_iff : (∃ fault, c.settings = .error fault) ↔ c.fault? ≠ none := by
  rw [settings]
  cases c.fault? <;> simp

end DatabaseChoice

/-- A name is plain when it matches the grammar. Settings with another name for a schema, or unsound
otherwise, are refused before anything is sent; with sound ones all that is ever sent has the schema
where one belongs and nowhere else. A user's choice of a database becomes settings that are sound
and say the same; it is refused only if these are not sound or the address is blank. -/
theorem TableSettings.only_plain_schemas_are_sent (s : TableSettings) :
    (∀ name : String, Identifier.isPlain name = true ↔
      name.toList ∈ Identifier.grammar.matches' ∧ name.utf8ByteSize ≤ 63) ∧
    ((∃ text, Session.overPool s = .error (.config text) ∧
        (∀ refusal, Session.connect s refusal = .error (.config text)) ∧
        ∀ (m : Type → Type) [Monad m] (call : m (Option LinkError)),
          Session.dial call s = pure (.error (.config text))) ∨
      (∀ name ∈ s.schema, Identifier.isPlain name = true) ∧
      ∀ session, Session.overPool s = .ok session ∨
        (∃ refusal, Session.connect s refusal = .ok session) →
        ∀ events t, Traffic.run? { session } events = some t → t.session.settings = s ∧
          ∀ i statement, .sent i statement ∈ t.log → statement.Sound s) ∧
    ∀ c : DatabaseChoice,
      (∀ made, c.settings = .ok made → made.connection = c.url ∧ made.schema = c.schema ∧
        made.maxConnections = c.maxConnections ∧ made.validate = .ok ()) ∧
      ((∃ fault, c.settings = .error fault) ↔
        c.unchecked.validate ≠ .ok () ∨ Text.allBlank c.url.toList = true) := by
  refine ⟨Identifier.isPlain_iff, ?_, fun c => ⟨?_, ?_⟩⟩
  · cases fault : s.fault? with
    | some text =>
      have unsound := TableSettings.validate_of_fault? fault
      have refuses (m : Type → Type) [Monad m] (call : m (Option LinkError)) :
          Session.dial call s = pure (.error (.config text)) := by rw [Session.dial, unsound]
      refine .inl ⟨text, ?_, fun refusal => ?_, refuses⟩
      · rw [Session.overPool, unsound]
      · exact (Session.dial_pure (m := Id) refusal s).symm.trans (refuses Id (pure refusal))
    | none =>
      have plain := (TableSettings.fault?_eq_none_iff.mp fault).2.1
      refine .inr ⟨plain, fun session made events t run => ?_⟩
      have start : session = { settings := s } := by
        obtain wrapped | ⟨refusal, connected⟩ := made
        · rw [Session.overPool, TableSettings.validate_eq_ok_iff.mpr fault] at wrapped
          exact (Except.ok.inj wrapped).symm
        · exact Session.eq_of_connect connected
      subst start
      exact ⟨((Traffic.sound_start s).run run).stable,
        fun i statement => Traffic.sends_sound plain run⟩
  · rintro made settled
    obtain ⟨sound, rfl⟩ := DatabaseChoice.settings_eq_ok_iff.mp settled
    exact ⟨rfl, rfl, rfl,
      TableSettings.validate_eq_ok_iff.mpr (DatabaseChoice.fault?_eq_none_iff.mp sound).2⟩
  · rw [DatabaseChoice.settings_eq_error_iff, Ne, DatabaseChoice.fault?_eq_none_iff, Ne,
      TableSettings.validate_eq_ok_iff, not_and_or, not_not, or_comm]

def firstRequest : List Traffic.Event :=
  [.arrive (.request (.prune .epoch)), .enter 0] ++ List.replicate 7 (.reply 0 (.done 0 []))

theorem tenant_is_sent :
    let s : TableSettings := { connection := "postgres://localhost", schema := some "tenant" }
    ∃ t, Traffic.run? { session := { settings := s } } firstRequest = some t ∧
      Traffic.asked 0 t.log = (InstallStep.all s).map .install ++ [.request (.prune .epoch)] ∧
      (∀ i statement, .sent i statement ∈ t.log → statement.Sound s) ∧
      (∃ name ∈ s.schema, name.toList ∈ Identifier.grammar.matches' ∧ name.utf8ByteSize ≤ 63) := by
  intro s
  have accepted : s.validate = .ok () := by decide
  have start : Session.overPool s = .ok { settings := s } := by rw [Session.overPool, accepted]
  obtain ⟨names, ⟨text, refused, -⟩ | ⟨plain, sends⟩, -⟩ :=
    TableSettings.only_plain_schemas_are_sent s
  · cases start.symm.trans refused
  · refine ⟨_, rfl, rfl, (sends _ (.inl start) firstRequest _ rfl).2, "tenant", rfl, ?_⟩
    exact (names "tenant").mp (plain "tenant" rfl)

end DelayedJobs
