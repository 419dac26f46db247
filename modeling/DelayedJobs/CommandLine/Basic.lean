/-!
The options and commands of a program, and what can be wrong with a command line. An option takes
one value. It may be shared by all commands and then stands before or behind the command.
-/

namespace DelayedJobs.CommandLine

structure OptionSpec where
  long : String
  short : Option Char := none
  envName : Option String := none
  fallback : Option String := none
  repeated : Bool := false
  required : Bool := false
  excludes : Option String := none
  accepts : String → Bool := fun _ => true

structure CommandSpec where
  name : String
  options : List OptionSpec := []

structure ProgramSpec where
  name : String
  shared : List OptionSpec
  commands : List CommandSpec

inductive UsageError where
  | help
  | nothing
  | missingCommand
  | unknownCommand (name : String)
  | unknownArgument (text : String)
  | missingValue (option : String)
  | unreadableValue (option text : String)
  | surplusValue (text : String)
  | conflict (option other : String)
  | missingOption (option : String)
deriving DecidableEq

namespace UsageError

def message : UsageError → String
  | help => "help was asked for"
  | nothing => "a command is needed"
  | missingCommand => "a command is needed"
  | unknownCommand name => "unrecognized command '" ++ name ++ "'"
  | unknownArgument text => "unexpected argument '" ++ text ++ "' found"
  | missingValue option => "a value is required for '--" ++ option ++ "' but none was supplied"
  | unreadableValue option text => "invalid value '" ++ text ++ "' for '--" ++ option ++ "'"
  | surplusValue text => "unexpected value '" ++ text ++ "' found"
  | conflict option other =>
    "the argument '--" ++ option ++ "' cannot be used with '--" ++ other ++ "'"
  | missingOption option => "the argument '--" ++ option ++ "' was not provided"

end UsageError

/-- Where a value comes from; a later one outweighs an earlier one. -/
inductive Origin where
  | fallback
  | environment
  | line
deriving DecidableEq

namespace Origin

def rank : Origin → Nat
  | fallback => 0
  | environment => 1
  | line => 2

def isExplicit : Origin → Bool
  | fallback => false
  | _ => true

end Origin

structure Given where
  option : String
  origin : Origin
  values : List String
deriving DecidableEq

def find? (name : String) (given : List Given) : Option Given :=
  given.find? fun g => g.option == name

end DelayedJobs.CommandLine
