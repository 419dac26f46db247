import DelayedJobs.Uuid
import Mathlib.Algebra.Group.Nat.Defs

/-!
Identifiers are read from their texts: the digits of a number give the number, and the groups
between the hyphens are put together again.
-/

namespace DelayedJobs.Uuid
open Json.Source

section Digits

theorem length_hexDigits (n v : Nat) : (hexDigits n v).length = n := by
  induction n generalizing v with
  | zero => rfl
  | succ n ih => rw [hexDigits, List.length_append, ih, List.length_singleton]

theorem hexDigit?_digitChar {d : Nat} (small : d < 16) : hexDigit? (Nat.digitChar d) = some d := by
  have digits : ∀ d < 16, hexDigit? (Nat.digitChar d) = some d := by decide
  exact digits d small

theorem hexValue?_concat (s : List Char) (c : Char) :
    hexValue? (s ++ [c]) = (hexValue? s).bind fun n => (hexDigit? c).map (16 * n + ·) := by
  rw [hexValue?, hexValue?, List.foldlM_append]
  simp only [List.foldlM_cons, List.foldlM_nil, bind_pure]
  rfl

theorem hexValue?_hexDigits (n v : Nat) : hexValue? (hexDigits n v) = some (v % 16 ^ n) := by
  induction n generalizing v with
  | zero => rw [Nat.pow_zero, Nat.mod_one]; rfl
  | succ n ih =>
    have split : 16 * (v / 16 % 16 ^ n) + v % 16 = v % 16 ^ (n + 1) := by
      rw [Nat.pow_succ', Nat.mod_mul, Nat.add_comm]
    rw [hexDigits, hexValue?_concat, ih, Option.bind_some,
      hexDigit?_digitChar (Nat.mod_lt v (by decide)), Option.map_some, split]

theorem ofDigits?_hexDigits (u : Uuid) : ofDigits? (hexDigits 32 u.value) = some u := by
  have fits := u.value_lt
  rw [ofDigits?, if_pos (length_hexDigits 32 _), hexValue?_hexDigits]
  refine congrArg some (Uuid.ext ?_)
  rw [ofNat]
  simp only [Word.count128] at *
  omega

end Digits

section Groups
variable {a b c d e : List Char}

def hyphenated (a b c d e : List Char) : List Char :=
  a ++ '-' :: b ++ '-' :: c ++ '-' :: d ++ '-' :: e

theorem ofGroups?_hyphenated (ha : a.length = 8) (hb : b.length = 4) (hc : c.length = 4)
    (hd : d.length = 4) (he : e.length = 12) :
    ofGroups? (hyphenated a b c d e) = ofDigits? (a ++ b ++ c ++ d ++ e) := by
  have length : (hyphenated a b c d e).length = 36 := by simp [hyphenated, ha, hb, hc, hd, he]
  have hyphens : (hyphenated a b c d e)[8]? = some '-' ∧ (hyphenated a b c d e)[13]? = some '-' ∧
      (hyphenated a b c d e)[18]? = some '-' ∧ (hyphenated a b c d e)[23]? = some '-' := by
    simp [hyphenated, ha, hb, hc, hd, List.getElem?_append]
  rw [ofGroups?]
  simp only
  rw [if_pos ⟨length, hyphens⟩]
  simp [hyphenated, ha, hb, hc, hd, List.drop_append, List.drop_eq_nil_of_le]

theorem take_append_drop_add (k n : Nat) (s : List Char) :
    (s.drop k).take n ++ s.drop (k + n) = s.drop k := by
  rw [← List.drop_drop, List.take_append_drop]

end Groups

theorem parse?_toString (u : Uuid) : parse? u.toString = some u := by
  have length := length_hexDigits 32 u.value
  have read := ofDigits?_hexDigits u
  have groups : u.toText = hyphenated ((hexDigits 32 u.value).take 8)
      (((hexDigits 32 u.value).drop 8).take 4) (((hexDigits 32 u.value).drop 12).take 4)
      (((hexDigits 32 u.value).drop 16).take 4) ((hexDigits 32 u.value).drop 20) := rfl
  generalize hexDigits 32 u.value = digits at *
  have joined : digits.take 8 ++ (digits.drop 8).take 4 ++ (digits.drop 12).take 4 ++
      (digits.drop 16).take 4 ++ digits.drop 20 = digits := by
    rw [List.append_assoc, take_append_drop_add, List.append_assoc, take_append_drop_add,
      List.append_assoc, take_append_drop_add, List.take_append_drop]
  have text : ofGroups? u.toText = some u := by
    rw [groups, ofGroups?_hyphenated (by simp [length]) (by simp [length]) (by simp [length])
      (by simp [length]) (by simp [length]), joined, read]
  have whole : u.toText.length = 36 := by
    rw [groups]
    simp [hyphenated, length]
  rw [parse?, toString, String.toList_ofList, ofText?, if_neg (by omega), if_pos whole, text]

end DelayedJobs.Uuid
