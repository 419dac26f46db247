import DelayedJobs.CommandLine.Basic

/-!
Reading a command line from left to right. The value of an option that stands in an argument of
its own is looked at when the next option comes, or at the end; at the end also the environment is
asked and what has no value gets its fallback. A command with its arguments is read to the end
before the options in front of it are finished.
-/

namespace DelayedJobs.CommandLine

structure Level where
  options : List OptionSpec
  given : List Given := []
  pending : Option (OptionSpec × Option String) := none

namespace Level

def isAwaiting (l : Level) : Bool :=
  match l.pending with
  | some (_, none) => true
  | _ => false

def byLong? (l : Level) (name : String) : Option OptionSpec :=
  l.options.find? fun o => o.long == name

def byShort? (l : Level) (c : Char) : Option OptionSpec :=
  l.options.find? fun o => o.short == some c

def valuesOf (o : OptionSpec) (text : String) : List String :=
  if o.repeated then text.splitOn "," else [text]

def accept (l : Level) (o : OptionSpec) (origin : Origin) (text : String) :
    Except UsageError Level := do
  let earlier := find? o.long l.given
  if earlier.isSome && !o.repeated then throw (.conflict o.long o.long)
  let values := valuesOf o text
  match values.find? fun v => !o.accepts v with
  | some v => throw (.unreadableValue o.long v)
  | none =>
    let before := earlier.elim [] Given.values
    let others := l.given.filter fun g => g.option != o.long
    return { l with given := others ++ [⟨o.long, origin, before ++ values⟩] }

def resolve (l : Level) : Except UsageError Level :=
  match l.pending with
  | none => .ok l
  | some (o, none) => .error (.missingValue o.long)
  | some (o, some text) => { l with pending := none }.accept o .line text

def meet (l : Level) (o : OptionSpec) (attached : Option String) : Except UsageError Level := do
  let l ← l.resolve
  match attached with
  | some text => l.accept o .line text
  | none => return { l with pending := some (o, none) }

def meetLong (l : Level) (text : List Char) : Except UsageError Level := do
  let name := String.ofList (text.takeWhile (· ≠ '='))
  let attached := match text.dropWhile (· ≠ '=') with
    | [] => none
    | _ :: value => some (String.ofList value)
  match l.byLong? name, attached with
  | some o, _ => l.meet o attached
  | none, some value =>
    if name = "help" then throw (.surplusValue value)
    else throw (.unknownArgument ("--" ++ name))
  | none, none =>
    if name = "help" then
      let _ ← l.resolve
      throw .help
    else throw (.unknownArgument ("--" ++ name))

def meetShort (l : Level) (c : Char) (rest : List Char) : Except UsageError Level := do
  match l.byShort? c with
  | some o =>
    l.meet o (match rest with
      | [] => none
      | '=' :: value => some (String.ofList value)
      | value => some (String.ofList value))
  | none =>
    if c = 'h' then
      let _ ← l.resolve
      throw .help
    else throw (.unknownArgument (String.ofList ['-', c]))

def askEnvironment (env : String → Option String) :
    List OptionSpec → Level → Except UsageError Level
  | [], l => .ok l
  | o :: rest, l =>
    if (find? o.long l.given).isSome then askEnvironment env rest l
    else
      match o.envName.bind env with
      | none => askEnvironment env rest l
      | some text => do askEnvironment env rest (← l.accept o .environment text)

def fallBack (l : Level) : Level :=
  let missing := l.options.filter fun o => (find? o.long l.given).isNone
  { l with given := l.given ++ missing.filterMap fun o =>
      o.fallback.map fun text => ⟨o.long, .fallback, [text]⟩ }

def isExplicit (l : Level) (name : String) : Bool :=
  (find? name l.given).any fun g => g.origin.isExplicit

def finish (env : String → Option String) (l : Level) : Except UsageError Level := do
  return (← askEnvironment env l.options (← l.resolve)).fallBack

/-- Options that exclude each other, and then options that have to be given. -/
def check (l : Level) : Except UsageError Unit := do
  let clash := l.options.findSome? fun o => o.excludes.bind fun other =>
    if l.isExplicit o.long && l.isExplicit other then some (o.long, other) else none
  match clash with
  | some (a, b) => throw (.conflict a b)
  | none =>
    match l.options.find? fun o => o.required && (find? o.long l.given).isNone with
    | some o => throw (.missingOption o.long)
    | none => return ()

end Level

inductive Stop where
  | ended
  | command (c : CommandSpec) (rest : List String)

def helpName : String := "help"

/-- Help on commands names one after the other; no command has commands of its own. -/
def helpOn (commands : List CommandSpec) : List String → UsageError
  | [] => .help
  | name :: rest =>
    if name = helpName ∨ commands.any fun c => c.name == name then
      match rest with
      | [] => .help
      | next :: _ => .unknownCommand next
    else .unknownCommand name

def stray (commands : List CommandSpec) (text : String) (isTrailing : Bool) : UsageError :=
  let isCommand := text = helpName ∨ commands.any fun c => c.name == text
  if commands.isEmpty || (isTrailing && isCommand) then .unknownArgument text
  else .unknownCommand text

/-- Reads the arguments of a level. Behind `--` there are no options and no commands. -/
def readLevel (commands : List CommandSpec) :
    List String → Bool → Level → Except UsageError (Stop × Level)
  | [], _, l => .ok (.ended, l)
  | text :: _, true, _ => .error (stray commands text true)
  | text :: rest, false, l => do
    if !l.isAwaiting then
      if let some c := commands.find? fun c => c.name == text then return (.command c rest, l)
      if text = helpName ∧ !commands.isEmpty then throw (helpOn commands rest)
    match text.toList with
    | ['-', '-'] => readLevel commands rest true l
    | '-' :: '-' :: name => readLevel commands rest false (← l.meetLong name)
    | '-' :: c :: more => readLevel commands rest false (← l.meetShort c more)
    | _ =>
      match l.pending with
      | some (o, none) => readLevel commands rest false { l with pending := some (o, some text) }
      | _ => throw (stray commands text false)

structure Invocation where
  command : String
  given : List Given

/-- Of the values given before a command and behind it those that weigh more, and of equals the
latter. -/
def weightier (before behind : Given) : Given :=
  if behind.origin.rank < before.origin.rank then before else behind

def merge (before behind : List Given) : List Given :=
  behind.map (fun g => (find? g.option before).elim g fun b => weightier b g) ++
    before.filter fun g => (find? g.option behind).isNone

def read (p : ProgramSpec) (env : String → Option String) (args : List String) :
    Except UsageError Invocation := do
  match ← readLevel p.commands args false { options := p.shared } with
  | (.ended, l) =>
    let l ← l.finish env
    if l.given.any fun g => g.origin.isExplicit then throw .missingCommand else throw .nothing
  | (.command c rest, before) =>
    let (_, behind) ← readLevel [] rest false { options := c.options ++ p.shared }
    let behind ← behind.finish env
    behind.check
    let before ← before.finish env
    return ⟨c.name, merge before.given behind.given⟩

end DelayedJobs.CommandLine
