import DelayedJobs.Json.Source

/-!
Identifiers of 128 bits, ordered as numbers. They are written in five groups of hexadecimal digits
and may also be read without hyphens, in braces or behind `urn:uuid:`.
-/

namespace DelayedJobs

structure Uuid where
  value : Nat
  value_lt : value < Word.count128
deriving DecidableEq

namespace Uuid

@[ext] theorem ext {a b : Uuid} (h : a.value = b.value) : a = b := by
  cases a; cases b; simp_all

instance : LT Uuid := ⟨fun a b => a.value < b.value⟩
instance : LE Uuid := ⟨fun a b => a.value ≤ b.value⟩
instance (a b : Uuid) : Decidable (a < b) := inferInstanceAs (Decidable (a.value < b.value))
instance (a b : Uuid) : Decidable (a ≤ b) := inferInstanceAs (Decidable (a.value ≤ b.value))

def ofNat (n : Nat) : Uuid := ⟨n % Word.count128, Nat.mod_lt _ (by decide)⟩

def nil : Uuid := ofNat 0

instance : Inhabited Uuid := ⟨nil⟩

def hexDigits : Nat → Nat → List Char
  | 0, _ => []
  | n + 1, v => hexDigits n (v / 16) ++ [Nat.digitChar (v % 16)]

def toText (u : Uuid) : List Char :=
  let d := hexDigits 32 u.value
  d.take 8 ++ '-' :: (d.drop 8).take 4 ++ '-' :: (d.drop 12).take 4 ++ '-' ::
    (d.drop 16).take 4 ++ '-' :: d.drop 20

def toString (u : Uuid) : String := String.ofList u.toText

def hexValue? (s : List Char) : Option Nat :=
  s.foldlM (fun n c => (Json.Source.hexDigit? c).map (16 * n + ·)) 0

def ofDigits? (s : List Char) : Option Uuid :=
  if s.length = 32 then (hexValue? s).map ofNat else none

/-- Thirty-two digits with hyphens after the eighth, twelfth, sixteenth and twentieth. -/
def ofGroups? (s : List Char) : Option Uuid :=
  let hyphen (n : Nat) := s[n]? = some '-'
  if s.length = 36 ∧ hyphen 8 ∧ hyphen 13 ∧ hyphen 18 ∧ hyphen 23 then
    ofDigits? (s.take 8 ++ (s.drop 9).take 4 ++ (s.drop 14).take 4 ++ (s.drop 19).take 4 ++
      s.drop 24)
  else none

def ofText? (s : List Char) : Option Uuid :=
  if s.length = 32 then ofDigits? s
  else if s.length = 36 then ofGroups? s
  else if s.length = 38 ∧ s.head? = some '\x7b' ∧ s.getLast? = some '\x7d' then
    ofGroups? ((s.drop 1).take 36)
  else if s.length = 45 ∧ s.take 9 = "urn:uuid:".toList then ofGroups? (s.drop 9)
  else none

def parse? (s : String) : Option Uuid := ofText? s.toList

end Uuid
end DelayedJobs
