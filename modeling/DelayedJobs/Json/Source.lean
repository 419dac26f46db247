import DelayedJobs.Json.Numeral

/-!
JSON text as a tree that keeps what the text says: members in their order, numbers as written, and
the place where the text stops being JSON. Scanning reads a text up to the first such place; what a
reader makes of the tree from left to right then decides which fault it meets first.
-/

namespace DelayedJobs.Json

/-- The kinds of faults of a text: it is no JSON, it ends too early, or it does not fit the type
that is wanted. -/
inductive Fault where
  | malformed
  | truncated
  | mismatched
deriving DecidableEq, Inhabited

def Fault.name : Fault → String
  | malformed => "syntax"
  | truncated => "eof"
  | mismatched => "data"

/-- How the items of an array or object end. A broken ending tells the fault that a reader meets,
the fault of one who only skips, and the fault of one who wants a text there. -/
inductive Ending where
  | closed
  | unfinished
  | broken (read skipped tag : Fault)
deriving DecidableEq

inductive Source where
  | null
  | bool (value : Bool)
  | number (numeral : Numeral)
  | string (text : Option String)
  | array (items : List Source) (ending : Ending)
  | object (members : List (Option String × Source)) (ending : Ending)
  /-- The text goes wrong here: the faults for a reader, for one who only skips, and for one who
  wants a choice. -/
  | broken (read skipped choice : Fault)
deriving Inhabited

namespace Source

def malformed : Source := broken .malformed .malformed .malformed
def truncated : Source := broken .truncated .truncated .truncated

def cutNumber : Source := broken .truncated .malformed .malformed

def cutWord : Source := broken .truncated .truncated .malformed

def isSpace (c : Char) : Bool := c = ' ' || c = '\n' || c = '\t' || c = '\r'

def skipSpace (s : List Char) : List Char := s.dropWhile isSpace

/-! Strings are cut into characters and escaped code units before the units are joined. -/

inductive Piece where
  | char (c : Char)
  | unit (n : Nat)
deriving DecidableEq

def hexDigit? (c : Char) : Option Nat :=
  if c.isDigit then some (c.toNat - 48)
  else if 'a' ≤ c ∧ c ≤ 'f' then some (c.toNat - 87)
  else if 'A' ≤ c ∧ c ≤ 'F' then some (c.toNat - 55)
  else none

def hexUnit? (a b c d : Char) : Option Nat := do
  return ((← hexDigit? a) * 16 + (← hexDigit? b)) * 256 + ((← hexDigit? c) * 16 + (← hexDigit? d))

def escape? (c : Char) : Option Char :=
  match c with
  | '"' => some '"'
  | '\\' => some '\\'
  | '/' => some '/'
  | 'b' => some '\x08'
  | 'f' => some '\x0c'
  | 'n' => some '\n'
  | 'r' => some '\r'
  | 't' => some '\t'
  | _ => none

def byteCount (s : List Char) : Nat := s.foldl (fun n c => n + c.utf8Size) 0

/-- An escape needs four more bytes; with fewer left the text has ended. -/
def badUnit (s : List Char) : Fault :=
  if byteCount (s.take 4) < 4 then .truncated else .malformed

def scanPieces : List Char → List Piece × Except Fault (List Char)
  | [] => ([], .error .truncated)
  | '"' :: rest => ([], .ok rest)
  | '\\' :: [] => ([], .error .truncated)
  | '\\' :: 'u' :: a :: b :: c :: d :: rest =>
    match hexUnit? a b c d with
    | some n => let (ps, e) := scanPieces rest; (.unit n :: ps, e)
    | none => ([], .error (badUnit (a :: b :: c :: d :: rest)))
  | '\\' :: c :: rest =>
    if c = 'u' then ([], .error (badUnit rest))
    else
      match escape? c with
      | some e => let (ps, r) := scanPieces rest; (.char e :: ps, r)
      | none => ([], .error .malformed)
  | c :: rest =>
    if c < ' ' then ([], .error .malformed)
    else let (ps, e) := scanPieces rest; (.char c :: ps, e)

def isHigh (n : Nat) : Bool := 0xD800 ≤ n && n ≤ 0xDBFF
def isLow (n : Nat) : Bool := 0xDC00 ≤ n && n ≤ 0xDFFF

def joinPair (high low : Nat) : Char :=
  Char.ofNat (0x10000 + (high - 0xD800) * 0x400 + (low - 0xDC00))

/-- Joins code units to characters; none if half a surrogate pair stands alone. A high half at
the very end is left to what follows it. -/
def joinUnits : List Piece → Option (List Char)
  | [] => some []
  | .char c :: rest => (joinUnits rest).map (c :: ·)
  | .unit n :: rest =>
    if isHigh n then
      match rest with
      | .unit m :: rest => if isLow m then (joinUnits rest).map (joinPair n m :: ·) else none
      | [] => some []
      | _ => none
    else if isLow n then none
    else (joinUnits rest).map (Char.ofNat n :: ·)

def endsHigh (ps : List Piece) : Bool :=
  match ps.getLast? with
  | some (.unit n) => isHigh n
  | _ => false

def joinAll (ps : List Piece) : Option String :=
  if endsHigh ps then none else (joinUnits ps).map String.ofList

def readFault (ps : List Piece) (f : Fault) : Fault :=
  if (joinUnits ps).isSome then f else .malformed

/-! Numbers. -/

def isExponentMark (c : Char) : Bool := c = 'e' || c = 'E'

/-- A sign and digits behind an exponent mark. At the end of the text a reader finds it cut short,
one who skips finds it malformed. -/
def scanExponent (n : Numeral) (s : List Char) : Source × Option (List Char) :=
  let (negative, s) := match s with
    | '+' :: r => (false, r)
    | '-' :: r => (true, r)
    | _ => (false, s)
  let digits := s.takeWhile Char.isDigit
  match digits, s with
  | [], [] => (cutNumber, none)
  | [], _ => (malformed, none)
  | _, _ =>
    let e : Int := Text.digitsValue digits
    (number { n with exponent := some (if negative then -e else e) },
      some (s.dropWhile Char.isDigit))

def scanFraction (n : Numeral) (s : List Char) : Source × Option (List Char) :=
  let digits := s.takeWhile Char.isDigit
  match digits, s with
  | [], [] => (cutNumber, none)
  | [], _ => (malformed, none)
  | _, _ =>
    let n := { n with fraction := digits }
    match s.dropWhile Char.isDigit with
    | c :: r => if isExponentMark c then scanExponent n r else (number n, some (c :: r))
    | [] => (number n, some [])

def scanNumber (negative : Bool) (s : List Char) : Source × Option (List Char) :=
  let whole := s.takeWhile Char.isDigit
  match whole, s with
  | [], [] => (cutNumber, none)
  | [], _ => (malformed, none)
  | '0' :: _ :: _, _ => (malformed, none)
  | _, _ =>
    let n : Numeral := { negative, whole }
    match s.dropWhile Char.isDigit with
    | c :: r =>
      if c = '.' then scanFraction n r
      else if isExponentMark c then scanExponent n r
      else (number n, some (c :: r))
    | [] => (number n, some [])

def scanWord (result : Source) : List Char → List Char → Source × Option (List Char)
  | [], s => (result, some s)
  | _ :: _, [] => (cutWord, none)
  | w :: ws, c :: s => if c = w then scanWord result ws s else (malformed, none)

def scanString (s : List Char) : Source × Option (List Char) :=
  match scanPieces s with
  | (ps, .ok rest) => (string (joinAll ps), some rest)
  | (ps, .error f) => (broken (readFault ps f) f (readFault ps f), none)

def tagFault : Source → Fault
  | broken read _ _ => read
  | _ => .mismatched

def brokenEnding (f : Fault) : Ending := .broken f f f

mutual

/-- One value and the text behind it, if the value is whole. The first argument bounds the number
of steps; the length of the text is enough. -/
def scan : Nat → List Char → Source × Option (List Char)
  | 0, _ => (truncated, none)
  | n + 1, s =>
    match skipSpace s with
    | [] => (truncated, none)
    | 'n' :: r => scanWord null ['u', 'l', 'l'] r
    | 't' :: r => scanWord (bool true) ['r', 'u', 'e'] r
    | 'f' :: r => scanWord (bool false) ['a', 'l', 's', 'e'] r
    | '"' :: r => scanString r
    | '-' :: r => scanNumber true r
    | '[' :: r => let (items, ending, rest) := scanItems n true r; (array items ending, rest)
    | '{' :: r => let (members, ending, rest) := scanMembers n true r; (object members ending, rest)
    | c :: r => if c.isDigit then scanNumber false (c :: r) else (malformed, none)

def scanItems : Nat → Bool → List Char → List Source × Ending × Option (List Char)
  | 0, _, _ => ([], .unfinished, none)
  | n + 1, first, s =>
    match skipSpace s with
    | [] => ([], .unfinished, none)
    | ']' :: r => ([], .closed, some r)
    | c :: r =>
      if first then scanItem n (c :: r)
      else if c = ',' then
        match skipSpace r with
        | [] => ([], brokenEnding .truncated, none)
        | ']' :: _ => ([], brokenEnding .malformed, none)
        | r => scanItem n r
      else ([], brokenEnding .malformed, none)

def scanItem : Nat → List Char → List Source × Ending × Option (List Char)
  | 0, _ => ([], .unfinished, none)
  | n + 1, s =>
    match scan n s with
    | (item, none) => ([item], .unfinished, none)
    | (item, some r) =>
      let (items, ending, rest) := scanItems n false r
      (item :: items, ending, rest)

def scanMembers : Nat → Bool → List Char →
    List (Option String × Source) × Ending × Option (List Char)
  | 0, _, _ => ([], .unfinished, none)
  | n + 1, first, s =>
    match skipSpace s with
    | [] => ([], .unfinished, none)
    | '}' :: r => ([], .closed, some r)
    | c :: r =>
      if first then
        if c = '"' then scanMember n r
        else ([], .broken .malformed .malformed (tagFault (scan n (c :: r)).1), none)
      else if c = ',' then
        match skipSpace r with
        | [] => ([], brokenEnding .truncated, none)
        | '"' :: r => scanMember n r
        | _ => ([], brokenEnding .malformed, none)
      else ([], brokenEnding .malformed, none)

def scanMember : Nat → List Char → List (Option String × Source) × Ending × Option (List Char)
  | 0, _ => ([], .unfinished, none)
  | n + 1, s =>
    match scanPieces s with
    | (ps, .error f) => ([], .broken (readFault ps f) f (readFault ps f), none)
    | (ps, .ok r) =>
      match skipSpace r with
      | ':' :: r =>
        match scan n r with
        | (value, none) => ([(joinAll ps, value)], .unfinished, none)
        | (value, some r) =>
          let (members, ending, rest) := scanMembers n false r
          ((joinAll ps, value) :: members, ending, rest)
      | [] => ([(joinAll ps, truncated)], .unfinished, none)
      | _ => ([(joinAll ps, malformed)], .unfinished, none)

end

def ofText (s : String) : Source × Bool :=
  let cs := s.toList
  let (source, rest) := scan (3 * cs.length + 3) cs
  (source, rest.any fun r => skipSpace r ≠ [])

end Source
end DelayedJobs.Json
