import DelayedJobs.Settings.Basic
import DelayedJobs.Table.Settings
import DelayedJobs.Text.Blank
import DelayedJobs.Time.Timestamp

/-!
The commands of the program, and the settings of the database that all of them share.
-/

namespace DelayedJobs

namespace Command

structure Order where
  kind : String
  data : String
  /-- Seconds from now. -/
  delay : Option UInt64 := none
  at_ : Option Timestamp := none

end Command

inductive Command where
  | install
  | schedule (order : Command.Order)
  | run (kinds : List String) (settings : Settings)

structure DatabaseChoice where
  url : String
  schema : Option String
  maxConnections : UInt32

namespace DatabaseChoice

inductive Fault where
  | emptyUrl
  | invalidSchema (name : String)
  | noConnections
deriving DecidableEq

def Fault.message : Fault → String
  | emptyUrl => "database URL cannot be empty (set --database-url or DATABASE_URL)"
  | invalidSchema name =>
    "schema '" ++ name ++ "' must be lowercase letters, digits and underscores"
  | noConnections => "max connections must be greater than 0"

def fault? (c : DatabaseChoice) : Option Fault :=
  if Text.allBlank c.url.toList then some .emptyUrl
  else
    match c.schema.filter fun name => !Identifier.isPlain name with
    | some name => some (.invalidSchema name)
    | none => if c.maxConnections = 0 then some .noConnections else none

def settings (c : DatabaseChoice) : Except Fault TableSettings :=
  match c.fault? with
  | some fault => .error fault
  | none => .ok { connection := c.url, schema := c.schema, maxConnections := c.maxConnections }

end DatabaseChoice
end DelayedJobs
