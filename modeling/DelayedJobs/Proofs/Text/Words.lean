import Mathlib.Data.List.Basic

/-!
A text cut into words, which are runs of letters, digits and underscores as long as they can be, and
the single characters between them. Where no word runs across a seam, a text is cut like its two
parts.
-/

namespace DelayedJobs.Text

def isWordChar (c : Char) : Bool := c.isAlphanum || c == '_'

def attach (c : Char) : List (List Char) → List (List Char)
  | (d :: word) :: rest =>
    if isWordChar c && isWordChar d then (c :: d :: word) :: rest else [c] :: (d :: word) :: rest
  | rest => [c] :: rest

def words : List Char → List (List Char)
  | [] => []
  | c :: rest => attach c (words rest)

/-- No word runs from the end of one text into the other. -/
def Apart (a b : List Char) : Prop :=
  ∀ c ∈ a.getLast?, ∀ d ∈ b.head?, isWordChar c = false ∨ isWordChar d = false

instance (a b : List Char) : Decidable (Apart a b) :=
  decidable_of_iff
    ((a.getLast?.all fun c => b.head?.all fun d => !isWordChar c || !isWordChar d) = true)
    (by simp [Apart, Option.all_eq_true])

variable {a b word : List Char} {c d : Char} {cut more : List (List Char)}

theorem attach_append (some_ : cut ≠ []) : attach c (cut ++ more) = attach c cut ++ more := by
  match cut with
  | [] => exact absurd rfl some_
  | [] :: rest => rfl
  | (d :: word) :: rest =>
    simp only [List.cons_append, attach]
    split <;> rfl

theorem words_cons (c : Char) (b : List Char) :
    ∃ word rest, words (c :: b) = (c :: word) :: rest := by
  rw [words, attach.eq_def]
  split
  · split
    · exact ⟨_, _, rfl⟩
    · exact ⟨_, _, rfl⟩
  · exact ⟨_, _, rfl⟩

theorem attach_apart (apart : ∀ d ∈ b.head?, isWordChar c = false ∨ isWordChar d = false) :
    attach c (words b) = [c] :: words b := by
  cases b with
  | nil => rfl
  | cons d rest =>
    obtain ⟨word, rest, cut⟩ := words_cons d rest
    rw [cut, attach, if_neg]
    obtain other | other := apart d rfl <;> simp [other]

theorem words_append (apart : Apart a b) : words (a ++ b) = words a ++ words b := by
  induction a with
  | nil => rfl
  | cons c a ih =>
    cases a with
    | nil => exact attach_apart (apart c rfl)
    | cons d a =>
      have some_ : words (d :: a) ≠ [] := by
        obtain ⟨word, rest, cut⟩ := words_cons d a
        simp [cut]
      change attach c (words (d :: a ++ b)) = attach c (words (d :: a)) ++ words b
      rw [ih apart, attach_append some_]

example : words "SELECT t.a_1".toList =
    ["SELECT".toList, [' '], "t".toList, ['.'], "a_1".toList] := by decide

theorem words_of_all (some_ : word ≠ []) (all : ∀ c ∈ word, isWordChar c = true) :
    words word = [word] := by
  induction word with
  | nil => exact absurd rfl some_
  | cons c rest ih =>
    rw [List.forall_mem_cons] at all
    cases rest with
    | nil => rfl
    | cons d rest =>
      have next : isWordChar d = true := all.2 d (.head _)
      rw [words, ih (List.cons_ne_nil _ _) all.2, attach, if_pos (by simp [all.1, next])]

end DelayedJobs.Text
