import DelayedJobs.Text.Blank
import Mathlib.Data.List.DropRight

/-!
Trimming takes white space off both ends of a text and nothing else. What is left is bare, and a
bare text is left as it is.
-/

namespace DelayedJobs.Text
variable {s a b : List Char} {c : Char}

def Bare (s : List Char) : Prop :=
  (∀ c ∈ s.head?, isBlank c = false) ∧ ∀ c ∈ s.getLast?, isBlank c = false

instance (s : List Char) : Decidable (Bare s) :=
  decidable_of_iff
    ((s.head?.all fun c => !isBlank c) = true ∧ (s.getLast?.all fun c => !isBlank c) = true)
    (by simp [Bare, Option.all_eq_true])

theorem not_isBlank_of_isDigit (digit : c.isDigit = true) : isBlank c = false := by
  simp only [Char.isDigit, Bool.and_eq_true, decide_eq_true_eq, ge_iff_le,
    UInt32.le_iff_toNat_le] at digit
  have low : 48 ≤ c.toNat := digit.1
  have high : c.toNat ≤ 57 := digit.2
  simp only [isBlank, Bool.or_eq_false_iff, Bool.and_eq_false_iff, decide_eq_false_iff_not,
    beq_eq_false_iff_ne]
  omega

theorem trimLeft_cons {r : List Char} (visible : isBlank c = false) :
    trimLeft (c :: r) = c :: r := List.dropWhile_cons_of_neg (by simp [visible])

theorem allBlank_iff : allBlank s = true ↔ ∀ c ∈ s, isBlank c = true := List.all_eq_true

theorem allBlank_append : allBlank (a ++ b) = true ↔ allBlank a = true ∧ allBlank b = true := by
  rw [allBlank, List.all_append, Bool.and_eq_true]
  rfl

theorem trimLeft_blank_append (blank : allBlank a) : trimLeft (a ++ s) = trimLeft s :=
  List.dropWhile_append_of_pos (allBlank_iff.mp blank)

theorem trimRight_append_blank (blank : allBlank b) : trimRight (s ++ b) = trimRight s := by
  have backwards : ∀ c ∈ b.reverse, isBlank c = true := fun c member =>
    allBlank_iff.mp blank c (List.mem_reverse.mp member)
  rw [trimRight, List.reverse_append, trimLeft, List.dropWhile_append_of_pos backwards]
  rfl

theorem trim_blank_append (blank : allBlank a) : trim (a ++ s) = trim s := by
  rw [trim, trimLeft_blank_append blank, trim]

theorem trim_append_blank (blank : allBlank b) : trim (s ++ b) = trim s := by
  by_cases empty : allBlank s
  · rw [trim_eq_nil_iff.mpr empty, trim_eq_nil_iff.mpr (allBlank_append.mpr ⟨empty, blank⟩)]
  · have some_ : trimLeft s ≠ [] := fun h => empty (trimLeft_eq_nil_iff.mp h)
    have left : trimLeft (s ++ b) = trimLeft s ++ b := by
      rw [trimLeft, List.dropWhile_append, if_neg (by simpa [trimLeft] using some_)]
      rfl
    rw [trim, left, trimRight_append_blank blank, trim]

theorem trimLeft_eq_self (front : ∀ c ∈ s.head?, isBlank c = false) : trimLeft s = s := by
  cases s with
  | nil => rfl
  | cons c r => exact trimLeft_cons (front c rfl)

theorem trimRight_eq_self (back : ∀ c ∈ s.getLast?, isBlank c = false) : trimRight s = s := by
  rw [← List.head?_reverse] at back
  rw [trimRight, trimLeft_eq_self back, List.reverse_reverse]

theorem trim_eq_self (bare : Bare s) : trim s = s := by
  rw [trim, trimLeft_eq_self bare.1, trimRight_eq_self bare.2]

theorem trimRight_append (back : ∀ c ∈ a.getLast?, isBlank c = false) :
    trimRight (a ++ s) = a ++ trimRight s := by
  rw [← List.head?_reverse] at back
  have whole : trimLeft a.reverse = a.reverse := trimLeft_eq_self back
  rw [trimRight, List.reverse_append, trimLeft, List.dropWhile_append]
  split
  next none_ =>
    have none_ : trimLeft s.reverse = [] := List.isEmpty_iff.mp none_
    rw [trimRight, none_, List.reverse_nil, List.append_nil]
    exact (congrArg List.reverse whole).trans a.reverse_reverse
  next => rw [List.reverse_append, List.reverse_reverse, trimRight, trimLeft]

theorem bare_trim (s : List Char) : Bare (trim s) := by
  constructor
  · intro c first
    obtain ⟨back, whole⟩ : trim s <+: trimLeft s := List.rdropWhile_prefix _ _
    match cut : trim s, first with
    | _ :: r, rfl =>
      rw [cut] at whole
      exact isBlank_head_trimLeft whole.symm
  · intro c last
    obtain ⟨some_, rfl⟩ := List.mem_getLast?_eq_getLast last
    exact Bool.eq_false_iff.mpr (List.rdropWhile_last_not isBlank _ some_)

theorem trim_eq_self_iff : trim s = s ↔ Bare s :=
  ⟨fun h => h ▸ bare_trim s, trim_eq_self⟩

theorem exists_blank_back (s : List Char) : ∃ back, allBlank back ∧ s = trimRight s ++ back :=
  ⟨s.rtakeWhile isBlank, allBlank_iff.mpr fun _ => List.mem_rtakeWhile_imp,
    (List.rdropWhile_append_rtakeWhile ..).symm⟩

theorem trim_trimRight (s : List Char) : trim (trimRight s) = trim s := by
  obtain ⟨back, blank, whole⟩ := exists_blank_back s
  conv_rhs => rw [whole, trim_append_blank blank]

theorem exists_blank_ends (s : List Char) :
    ∃ front back, allBlank front ∧ allBlank back ∧ s = front ++ trim s ++ back := by
  obtain ⟨back, blank, cut⟩ := exists_blank_back (trimLeft s)
  refine ⟨s.takeWhile isBlank, back, List.all_takeWhile, blank, ?_⟩
  rw [List.append_assoc, trim, ← cut, trimLeft, List.takeWhile_append_dropWhile]

end DelayedJobs.Text
