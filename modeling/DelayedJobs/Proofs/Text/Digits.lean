import DelayedJobs.Time.DurationText
import Mathlib.Data.List.DropRight

/-!
Digits at the front of a text, and the numbers they stand for.
-/

namespace DelayedJobs.Text
variable {s rest : List Char}

def Ends (rest : List Char) : Prop := rest.head?.all (fun c => !c.isDigit) = true

theorem Ends.cons {c : Char} {r : List Char} (h : Ends (c :: r)) : c.isDigit = false := by
  simpa [Ends] using h

theorem Ends.take (ends : Ends rest) (k : Nat) : Ends (rest.take k) := by
  cases k with
  | zero => rfl
  | succ k => cases rest <;> exact ends

theorem takeWhile_digits (ends : Ends rest) :
    (s ++ rest).takeWhile Char.isDigit = s.takeWhile Char.isDigit := by
  rw [List.takeWhile_append]
  split
  next all =>
    have whole : s.takeWhile Char.isDigit = s := (List.takeWhile_prefix _).eq_of_length all
    cases rest with
    | nil => rw [List.takeWhile_nil, List.append_nil, whole]
    | cons c r => rw [List.takeWhile_cons_of_neg (by simp [ends.cons]), List.append_nil, whole]
  next => rfl

theorem dropWhile_digits (ends : Ends rest) :
    (s ++ rest).dropWhile Char.isDigit = s.dropWhile Char.isDigit ++ rest := by
  rw [List.dropWhile_append]
  split
  next all =>
    rw [List.isEmpty_iff.mp all]
    cases rest with
    | nil => rfl
    | cons c r => exact List.dropWhile_cons_of_neg (by simp [ends.cons])
  next => rfl

section All
variable (digits : ∀ c ∈ s, c.isDigit = true)
include digits

theorem takeWhile_all_digits (ends : Ends rest) : (s ++ rest).takeWhile Char.isDigit = s :=
  (takeWhile_digits ends).trans (List.takeWhile_eq_self_iff.mpr digits)

theorem dropWhile_all_digits (ends : Ends rest) : (s ++ rest).dropWhile Char.isDigit = rest := by
  rw [dropWhile_digits ends, List.dropWhile_eq_nil_iff.mpr digits, List.nil_append]

end All

theorem isDigit_toDigits (n : Nat) : ∀ c ∈ Nat.toDigits 10 n, c.isDigit = true := fun _ =>
  Nat.isDigit_of_mem_toDigits (by decide) (by decide)

theorem digitsValue_eq (s : List Char) : digitsValue s = Nat.ofDigitChars 10 s 0 := rfl

theorem digitsValue_zeros (k n : Nat) :
    digitsValue (List.replicate k '0' ++ Nat.toDigits 10 n) = n := by
  have zeros : Nat.ofDigitChars 10 (List.replicate k '0') 0 = 0 := by
    induction k with
    | zero => rfl
    | succ k ih => rw [List.replicate_succ, Nat.ofDigitChars_cons]; exact ih
  rw [digitsValue_eq, Nat.ofDigitChars_append, zeros,
    Nat.ofDigitChars_toDigits (by decide) (by decide)]

end DelayedJobs.Text
