import DelayedJobs.Decimal.Shortest
import DelayedJobs.Json.Basic

/-!
Compact JSON text. A double is written with the fewest digits that read back, with a point unless
its decimal exponent is large or small, and doubles that are no numbers become `null`.
-/

namespace DelayedJobs.Json

def hexDigit (n : Nat) : Char := if n < 10 then Char.ofNat (48 + n) else Char.ofNat (87 + n)

def escape (c : Char) : List Char :=
  if c = '"' then ['\\', '"']
  else if c = '\\' then ['\\', '\\']
  else if c = '\x08' then ['\\', 'b']
  else if c = '\x0c' then ['\\', 'f']
  else if c = '\n' then ['\\', 'n']
  else if c = '\r' then ['\\', 'r']
  else if c = '\t' then ['\\', 't']
  else if c < ' ' then ['\\', 'u', '0', '0', hexDigit (c.toNat / 16), hexDigit (c.toNat % 16)]
  else [c]

def quote (s : String) : List Char := '"' :: s.toList.flatMap escape ++ ['"']

def naturalText (n : Nat) : List Char := Nat.toDigits 10 n

def intText (i : Int) : List Char :=
  if i < 0 then '-' :: naturalText i.natAbs else naturalText i.natAbs

def exponentText (i : Int) : List Char :=
  'e' :: (if i < 0 then '-' else '+') :: naturalText i.natAbs

/-- The digits of `d`, with a point where the decimal exponent is from -4 to 16 and an exponent
otherwise; whole numbers get `.0`. -/
def decimalText (d : Decimal) : List Char :=
  let digits := naturalText d.digits
  let count : Int := digits.length
  let point := count + d.exponent
  if 0 ≤ d.exponent ∧ point ≤ 16 then
    digits ++ List.replicate d.exponent.toNat '0' ++ ['.', '0']
  else if 0 < point ∧ point ≤ 16 then
    digits.take point.toNat ++ '.' :: digits.drop point.toNat
  else if -5 < point ∧ point ≤ 0 then
    '0' :: '.' :: List.replicate (-point).toNat '0' ++ digits
  else
    match digits with
    | [c] => c :: exponentText (point - 1)
    | c :: rest => c :: '.' :: rest ++ exponentText (point - 1)
    | [] => []

def realText (x : Float) : List Char :=
  match Binary.ofFloat x with
  | .finite negative mantissa exponent =>
    let text :=
      if mantissa = 0 then ['0', '.', '0'] else decimalText (.shortest mantissa exponent)
    if negative then '-' :: text else text
  | _ => ['n', 'u', 'l', 'l']

def Number.text : Number → List Char
  | int i => intText i
  | real x => realText x

mutual

def text : Json → List Char
  | null => ['n', 'u', 'l', 'l']
  | bool true => ['t', 'r', 'u', 'e']
  | bool false => ['f', 'a', 'l', 's', 'e']
  | number n => n.text
  | string s => quote s
  | array items => '[' :: itemsText items ++ [']']
  | object members => '\x7b' :: membersText members ++ ['\x7d']

def itemsText : List Json → List Char
  | [] => []
  | [v] => text v
  | v :: rest => text v ++ ',' :: itemsText rest

def membersText : List (String × Json) → List Char
  | [] => []
  | [(name, v)] => quote name ++ ':' :: text v
  | (name, v) :: rest => quote name ++ ':' :: text v ++ ',' :: membersText rest

end

def print (j : Json) : String := String.ofList j.text

end DelayedJobs.Json
