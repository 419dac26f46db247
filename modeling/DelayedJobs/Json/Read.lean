import DelayedJobs.Json.Source

/-!
Values and typed fields read off a JSON tree from left to right. Arrays and objects may be nested
127 deep where they are read and without bound where they are skipped.
-/

namespace DelayedJobs.Json

/-- Reads a tree; the number is how many arrays and objects may still be nested. -/
abbrev Reader (α : Type) := Nat → Source → Except Fault α

namespace Ending

def read : Ending → Except Fault Unit
  | closed => .ok ()
  | unfinished => .error .truncated
  | broken fault _ _ => .error fault

def skip : Ending → Except Fault Unit
  | closed => .ok ()
  | unfinished => .error .truncated
  | broken _ fault _ => .error fault

def close : Ending → Except Fault Unit
  | closed => .ok ()
  | unfinished => .error .truncated
  | broken _ _ _ => .error .malformed

end Ending

namespace Source

def depthLimit : Nat := 127

mutual

def skip : Source → Except Fault Unit
  | broken _ fault _ => .error fault
  | array items ending => do skipItems items; ending.skip
  | object members ending => do skipMembers members; ending.skip
  | _ => .ok ()

def skipItems : List Source → Except Fault Unit
  | [] => .ok ()
  | s :: rest => do skip s; skipItems rest

def skipMembers : List (Option String × Source) → Except Fault Unit
  | [] => .ok ()
  | (_, s) :: rest => do skip s; skipMembers rest

end

mutual

/-- The value of a tree. Names are put in order, and the last of two equal ones counts. -/
def read : Source → Nat → Except Fault Json
  | null, _ => .ok .null
  | bool b, _ => .ok (.bool b)
  | number n, _ =>
    match n.value? with
    | some x => .ok (.number x)
    | none => .error .malformed
  | string text, _ =>
    match text with
    | some t => .ok (.string t)
    | none => .error .malformed
  | array items ending, depth => do
    if depth = 0 then throw .malformed
    let values ← readItems items (depth - 1)
    ending.read
    return .array values
  | object members ending, depth => do
    if depth = 0 then throw .malformed
    let values ← readMembers members (depth - 1) []
    ending.read
    return .object values
  | broken fault _ _, _ => .error fault

def readItems : List Source → Nat → Except Fault (List Json)
  | [], _ => .ok []
  | s :: rest, depth => do
    let value ← read s depth
    let values ← readItems rest depth
    return value :: values

def readMembers : List (Option String × Source) → Nat → List (String × Json) →
    Except Fault (List (String × Json))
  | [], _, acc => .ok acc
  | (none, _) :: _, _, _ => .error .malformed
  | (some name, s) :: rest, depth, acc => do
    let value ← read s depth
    readMembers rest depth (Json.insertMember name value acc)

end

/-- The fault of a reader who wants another type than stands here. A value without parts is read
to its end first. -/
def mismatch : Source → Fault
  | number n => if n.value?.isSome then .mismatched else .malformed
  | string text => if text.isSome then .mismatched else .malformed
  | broken fault _ _ => fault
  | _ => .mismatched

end Source

namespace Reader

def value : Reader Json := fun depth s => s.read depth

def ignored : Reader Unit := fun _ s => s.skip

def text : Reader String := fun _ s =>
  match s with
  | .string (some t) => .ok t
  | s => .error s.mismatch

def textOf {α : Type} (f : String → Option α) : Reader α := fun depth s => do
  match f (← text depth s) with
  | some a => return a
  | none => throw .mismatched

def natural (bound : Nat) : Reader Nat := fun _ s =>
  match s with
  | .number n =>
    match n.value? with
    | some (.int v) => if 0 ≤ v ∧ v < bound then .ok v.toNat else .error .mismatched
    | some (.real _) => .error .mismatched
    | none => .error .malformed
  | s => .error s.mismatch

def real : Reader Float := fun _ s =>
  match s with
  | .number n =>
    match n.value? with
    | some (.int v) => .ok (Float.ofInt v)
    | some (.real x) => .ok x
    | none => .error .malformed
  | s => .error s.mismatch

def optional {α : Type} (read : Reader α) : Reader (Option α) := fun depth s =>
  match s with
  | .null => .ok none
  | s => (read depth s).map some

def map {α β : Type} (f : α → β) (read : Reader α) : Reader β := fun depth s =>
  (read depth s).map f

/-- A choice written as its name, or as an object whose one member has that name and no value. -/
def choice {α : Type} (ofName : String → Option α) : Reader α := fun depth s =>
  match s with
  | .string (some t) => (ofName t).elim (.error .mismatched) .ok
  | .string none => .error .malformed
  | .broken _ _ fault => .error fault
  | .object members ending =>
    if depth = 0 then .error .malformed
    else
      match members with
      | [] =>
        match ending with
        | .closed => .error .malformed
        | .unfinished => .error .truncated
        | .broken _ _ tag => .error tag
      | (none, _) :: _ => .error .malformed
      | (some name, body) :: more =>
        match ofName name, body with
        | none, _ => .error .mismatched
        | some a, .null =>
          if more.isEmpty then ending.close.map fun _ => a else .error .malformed
        | some _, body => .error body.mismatch
  | _ => .error .malformed

def run {α : Type} (read : Reader α) (s : String) : Except Fault α := do
  let (source, more) := Source.ofText s
  let a ← read Source.depthLimit source
  if more then throw .malformed
  return a

end Reader

def parse (s : String) : Except Fault Json := Reader.value.run s

end DelayedJobs.Json
