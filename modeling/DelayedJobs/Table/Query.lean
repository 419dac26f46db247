import DelayedJobs.Table.Row
import DelayedJobs.Table.Settings

/-!
The statements on the jobs table as trees, and their text. The name of the table has places of its
own in the text, so that a schema can be put in front of it there and nowhere else.
-/

namespace DelayedJobs

inductive Operand where
  | param (index : Nat)
  | status (value : JobStatus)
  | number (value : Nat)
  | null
  | successor (column : Column)
deriving DecidableEq

inductive Condition where
  | equals (column : Column) (value : Operand)
  | hasStatus (choices : List JobStatus)
  | atMost (column : Column) (bound : Operand)
  | below (column : Column) (bound : Operand)
deriving DecidableEq

/-- The identifiers of some rows that meet all conditions: at most `limit` of them, those that come
first in the order of the columns, none that another statement has locked. -/
structure Selection where
  conditions : List Condition
  order : List Column
  limit : Operand
deriving DecidableEq

inductive Target where
  | rows (conditions : List Condition)
  | one (selection : Selection)
  | each (selection : Selection)
deriving DecidableEq

inductive Query where
  | insert (values : List (Column × Operand))
  | update (changes : List (Column × Operand)) (target : Target) (returning : List Column)
  | delete (target : Target)
deriving DecidableEq

inductive Piece where
  | text (s : String)
  | table
deriving DecidableEq

namespace Piece

def render (qualifier : String) (pieces : List Piece) : String :=
  pieces.foldr (fun
    | text s, rest => s ++ rest
    | table, rest => qualifier ++ TableSettings.baseName ++ rest) ""

end Piece

namespace Query

open Piece

def commaList (texts : List String) : String := ", ".intercalate texts

def columnList (columns : List Column) : String := commaList (columns.map Column.name)

def statusText (s : JobStatus) : String := "'" ++ s.name ++ "'"

def operandText : Operand → String
  | .param index => "$" ++ toString index
  | .status s => statusText s
  | .number n => toString n
  | .null => "NULL"
  | .successor c => c.name ++ " + 1"

def conditionText : Condition → String
  | .equals c v => c.name ++ " = " ++ operandText v
  | .hasStatus choices =>
    Column.status.name ++ " IN (" ++ commaList (choices.map statusText) ++ ")"
  | .atMost c v => c.name ++ " <= " ++ operandText v
  | .below c v => c.name ++ " < " ++ operandText v

def conditionsText (conditions : List Condition) : String :=
  " AND ".intercalate (conditions.map conditionText)

def orderText (order : List Column) : String :=
  if order.isEmpty then "" else " ORDER BY " ++ columnList order

def selectionPieces (s : Selection) : List Piece := [
  text ("( SELECT " ++ Column.jobId.name ++ " FROM "), table,
  text (" WHERE " ++ conditionsText s.conditions ++ orderText s.order ++ " LIMIT " ++
    operandText s.limit ++ " FOR UPDATE SKIP LOCKED )")]

def targetPieces : Target → List Piece
  | .rows conditions => [text (" WHERE " ++ conditionsText conditions)]
  | .one s => text (" WHERE " ++ Column.jobId.name ++ " = ") :: selectionPieces s
  | .each s => text (" WHERE " ++ Column.jobId.name ++ " IN ") :: selectionPieces s

def changeText (change : Column × Operand) : String :=
  change.1.name ++ " = " ++ operandText change.2

def returningPieces (columns : List Column) : List Piece :=
  if columns.isEmpty then [] else [text (" RETURNING " ++ columnList columns)]

def pieces : Query → List Piece
  | insert values => [
    text "INSERT INTO ", table,
    text (" (" ++ columnList (values.map Prod.fst) ++ ") VALUES (" ++
      commaList (values.map fun v => operandText v.2) ++ ")")]
  | update changes target returning =>
    text "UPDATE " :: table :: text (" SET " ++ commaList (changes.map changeText)) ::
      targetPieces target ++ returningPieces returning
  | delete target => text "DELETE FROM " :: table :: targetPieces target

end Query
end DelayedJobs
