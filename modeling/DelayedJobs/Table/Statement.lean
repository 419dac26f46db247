import DelayedJobs.Store.Basic
import DelayedJobs.Table.Query

/-!
The statements that a table store sends: one for each request, and those that create the table.
Only the holder of a job matches the statements about it, and only while the job is claimed.
-/

namespace DelayedJobs

namespace Store.Request

def insertQuery : Query := .insert [
  (.jobId, .param 1), (.kind, .param 2), (.payload, .param 3), (.scheduledFor, .param 4),
  (.invisibleUntil, .param 4), (.attempt, .number 0), (.status, .status .ready)]

def claimQuery : Query := .update
  [(.status, .status .claimed), (.claimedBy, .param 1), (.invisibleUntil, .param 2),
    (.attempt, .successor .attempt)]
  (.one {
    conditions := [.hasStatus [.ready, .claimed], .atMost .invisibleUntil (.param 3)]
    order := [.invisibleUntil, .scheduledFor]
    limit := .number 1 })
  Column.all

def heldTarget : Target := .rows
  [.equals .jobId (.param 1), .equals .claimedBy (.param 2), .equals .status (.status .claimed)]

def heldQuery (changes : List (Column × Operand)) : Query :=
  .update (changes ++ [(.invisibleUntil, .param 3)]) heldTarget []

def pruneQuery : Query := .delete (.each {
  conditions := [.hasStatus [.completed, .failed], .below .invisibleUntil (.param 1)]
  order := []
  limit := .param 2 })

def query : Store.Request → Query
  | schedule .. => insertQuery
  | claim .. => claimQuery
  | keep .. => heldQuery []
  | complete .. => heldQuery [(.status, .status .completed)]
  | retry .. => heldQuery [(.status, .status .ready), (.claimedBy, .null)]
  | forget .. => heldQuery [(.status, .status .failed)]
  | prune _ => pruneQuery

def params (pruneBatch : Nat) : Store.Request → List SqlValue
  | schedule id payload due => [.uuid id, .text payload.kind, .json payload.data, .time due]
  | claim worker now until_ => [.uuid worker.id, .time until_, .time now]
  | keep worker job t | complete worker job t | retry worker job t | forget worker job t =>
    [.uuid job.id, .uuid worker.id, .time t]
  | prune cutoff => [.time cutoff, .number pruneBatch]

end Store.Request

/-- The steps that create the table. The lock keeps other processes from doing the same. -/
inductive InstallStep where
  | begin_
  | lock
  | createSchema (name : String)
  | createTable
  | createIndex
  | commit
deriving DecidableEq

namespace InstallStep

def lockKey : Int := 0x6c6170736500

/-- The steps after the first one, which is `begin_`. -/
def rest (s : TableSettings) : List InstallStep :=
  lock :: s.schema.toList.map createSchema ++ [createTable, createIndex, commit]

def all (s : TableSettings) : List InstallStep := begin_ :: rest s

open Piece

def declarations : String :=
  Query.commaList (Column.all.map fun c => c.name ++ " " ++ c.declaration)

def pieces : InstallStep → List Piece
  | begin_ => [text "BEGIN"]
  | lock => [text "SELECT pg_advisory_xact_lock($1)"]
  | createSchema name => [text ("CREATE SCHEMA IF NOT EXISTS " ++ name)]
  | createTable =>
    [text "CREATE TABLE IF NOT EXISTS ", table, text (" ( " ++ declarations ++ " )")]
  | createIndex => [
    text "CREATE INDEX IF NOT EXISTS lapse_jobs_claim_idx ON ", table,
    text (" (" ++ Query.columnList [.status, .invisibleUntil, .scheduledFor] ++ ")")]
  | commit => [text "COMMIT"]

def params : InstallStep → List SqlValue
  | lock => [.number lockKey]
  | _ => []

end InstallStep

inductive Statement where
  | install (step : InstallStep)
  | request (r : Store.Request)

namespace Statement

def pieces : Statement → List Piece
  | install step => step.pieces
  | request r => r.query.pieces

def text (s : TableSettings) (statement : Statement) : String :=
  Piece.render s.qualifier statement.pieces

def params (s : TableSettings) : Statement → List SqlValue
  | install step => step.params
  | request r => r.params s.pruneBatch.toNat

end Statement
end DelayedJobs
