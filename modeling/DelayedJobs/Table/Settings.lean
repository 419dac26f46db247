import DelayedJobs.Store.Error
import DelayedJobs.Time.Duration

/-!
Settings of a store that keeps its jobs in a table of a database. A schema is written into
statements as it stands, so only plain identifiers pass.
-/

namespace DelayedJobs

namespace Identifier

def isStart (c : Char) : Bool := ('a' ≤ c && c ≤ 'z') || c == '_'

def isPart (c : Char) : Bool := isStart c || ('0' ≤ c && c ≤ '9')

def mostBytes : Nat := 63

/-- Lower case letters, digits and underscores, no digit in front. -/
def isPlain (s : String) : Bool :=
  match s.toList with
  | [] => false
  | c :: rest => decide (s.utf8ByteSize ≤ mostBytes) && isStart c && rest.all isPart

end Identifier

structure TableSettings where
  connection : String
  schema : Option String := none
  maxConnections : UInt32 := 10
  acquireTimeout : Duration := .ofSeconds 5
  pruneBatch : UInt32 := 100
deriving DecidableEq

namespace TableSettings

def fault? (s : TableSettings) : Option String :=
  if s.connection = "" then some "connection string cannot be empty"
  else
    match s.schema.filter fun name => !Identifier.isPlain name with
    | some name => some ("schema '" ++ name ++ "' must be a plain SQL identifier")
    | none =>
      if s.maxConnections = 0 then some "max_connections must be greater than 0"
      else if s.pruneBatch = 0 then some "prune_batch must be greater than 0"
      else none

def validate (s : TableSettings) : Except StoreError Unit :=
  match s.fault? with
  | some text => .error (.config text)
  | none => .ok ()

def qualifier (s : TableSettings) : String := s.schema.elim "" fun name => name ++ "."

def baseName : String := "lapse_jobs"

def tableName (s : TableSettings) : String := s.qualifier ++ baseName

end TableSettings
end DelayedJobs
