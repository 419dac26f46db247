import DelayedJobs.Table.Query

/-!
What the statements do to the rows of the table, one statement at a time. A condition holds of a
row only if it is true; a comparison with `NULL` is not.
-/

namespace DelayedJobs

/-- The order in which a database comes upon the rows of a table. It may be any order. -/
structure RowOrder where
  arrange : List JobRow → List JobRow
  perm : ∀ rows, (arrange rows).Perm rows

def RowOrder.oldestFirst : RowOrder := ⟨id, fun _ => .refl _⟩

structure RowsAnswer where
  affected : Nat
  returned : List JobRow
deriving BEq, Inhabited

namespace Query

def value (params : List SqlValue) (row : JobRow) : Operand → SqlValue
  | .param index => (params[index - 1]?).getD .null
  | .status s => .text s.name
  | .number n => .number n
  | .null => .null
  | .successor c =>
    match row.get c with
    | .number n => .number (n + 1)
    | _ => .null

def holds (params : List SqlValue) (row : JobRow) : Condition → Bool
  | .equals c v => (row.get c).equals (value params row v)
  | .hasStatus choices => choices.any fun s => (row.get .status).equals (.text s.name)
  | .atMost c v =>
    (row.get c).equals (value params row v) || (row.get c).before (value params row v)
  | .below c v => (row.get c).before (value params row v)

def holdsAll (params : List SqlValue) (conditions : List Condition) (row : JobRow) : Bool :=
  conditions.all (holds params row)

def inOrder : List Column → JobRow → JobRow → Bool
  | [], _, _ => true
  | c :: rest, a, b =>
    if (a.get c).before (b.get c) then true
    else if (b.get c).before (a.get c) then false
    else inOrder rest a b

def limitOf (params : List SqlValue) (v : Operand) : Nat :=
  match value params .blank v with
  | .number n => n.toNat
  | _ => 0

def selected (order : RowOrder) (params : List SqlValue) (rows : List JobRow) (s : Selection) :
    List Uuid :=
  let candidates := (order.arrange rows).filter (holdsAll params s.conditions)
  ((candidates.mergeSort (inOrder s.order)).take (limitOf params s.limit)).map JobRow.jobId

def isTarget (order : RowOrder) (params : List SqlValue) (rows : List JobRow) :
    Target → JobRow → Bool
  | .rows conditions, row => holdsAll params conditions row
  | .one s, row => (selected order params rows s).head? == some row.jobId
  | .each s, row => (selected order params rows s).contains row.jobId

/-- The row after all changes, each computed from the row as it was. -/
def change? (params : List SqlValue) (changes : List (Column × Operand)) (row : JobRow) :
    Option JobRow :=
  changes.foldlM (fun r (c, v) => r.set? c (value params row v)) row

def run? (order : RowOrder) (params : List SqlValue) (rows : List JobRow) :
    Query → Option (RowsAnswer × List JobRow)
  | insert values => do
    let row ← change? params values .blank
    if rows.any fun r => r.jobId == row.jobId then failure
    return (⟨1, []⟩, rows ++ [row])
  | update changes target returning => do
    let isTarget := isTarget order params rows target
    let after ← rows.mapM fun r => if isTarget r then change? params changes r else some r
    let changed := (rows.zip after).filterMap fun (r, r') => if isTarget r then some r' else none
    return (⟨changed.length, if returning.isEmpty then [] else changed⟩, after)
  | delete target =>
    let isTarget := isTarget order params rows target
    some (⟨rows.countP isTarget, []⟩, rows.filter fun r => !isTarget r)

end Query
end DelayedJobs
