import DelayedJobs.Json.Read

/-!
Records read from an object, whose members may come in any order, or from an array with the fields
in the order of their declaration.
-/

namespace DelayedJobs.Json

/-- A field of a record `σ`: what is read for it changes the record. -/
structure RecordField (σ : Type) where
  name : String
  required : Bool := true
  read : Reader (σ → σ)

structure Record (σ : Type) where
  fields : List (RecordField σ)
  start : σ
  defaults : Bool := false
  open_ : Bool := true

namespace Record

variable {σ : Type}

def field? (r : Record σ) (name : String) : Option (RecordField σ) :=
  r.fields.find? fun f => f.name == name

def readMembers (r : Record σ) (depth : Nat) :
    List (Option String × Source) → List String → σ → Except Fault (List String × σ)
  | [], seen, a => .ok (seen, a)
  | (none, _) :: _, _, _ => .error .malformed
  | (some name, s) :: rest, seen, a => do
    match r.field? name with
    | some f =>
      if name ∈ seen then throw .mismatched
      let set ← f.read depth s
      readMembers r depth rest (name :: seen) (set a)
    | none =>
      if !r.open_ then throw .mismatched
      s.skip
      readMembers r depth rest seen a

/-- Reads items for the fields in order; items beyond the last field are left over. -/
def readItems (depth : Nat) (defaults : Bool) (ending : Ending) :
    List (RecordField σ) → List Source → σ → Except Fault (List Source × σ)
  | [], items, a => .ok (items, a)
  | _ :: _, [], a => do
    ending.read
    if defaults then return ([], a) else throw .mismatched
  | f :: fields, s :: items, a => do
    let set ← f.read depth s
    readItems depth defaults ending fields items (set a)

/-- Reads a record and makes `β` of it before the closing bracket is looked at. -/
def readAs {β : Type} (r : Record σ) (make : σ → Option β) : Reader β := fun depth s =>
  match s with
  | .object members ending => do
    if depth = 0 then throw .malformed
    let (seen, a) ← r.readMembers (depth - 1) members [] r.start
    ending.read
    if r.fields.any fun f => f.required && !seen.contains f.name then throw .mismatched
    match make a with
    | some b => return b
    | none => throw .mismatched
  | .array items ending => do
    if depth = 0 then throw .malformed
    let (more, a) ← readItems (depth - 1) r.defaults ending r.fields items r.start
    match make a with
    | none => throw .mismatched
    | some b =>
      if more.isEmpty then ending.close else throw .malformed
      return b
  | s => .error s.mismatch

def read (r : Record σ) : Reader σ := r.readAs some

end Record
end DelayedJobs.Json
