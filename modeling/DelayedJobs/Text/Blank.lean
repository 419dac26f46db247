/-!
White space of Unicode, and its removal from the ends of a text.
-/

namespace DelayedJobs.Text

/-- The characters with the property `White_Space`. -/
def isBlank (c : Char) : Bool :=
  let n := c.toNat
  (0x9 ≤ n && n ≤ 0xD) || n == 0x20 || n == 0x85 || n == 0xA0 || n == 0x1680 ||
    (0x2000 ≤ n && n ≤ 0x200A) || n == 0x2028 || n == 0x2029 || n == 0x202F || n == 0x205F ||
    n == 0x3000

def trimLeft (s : List Char) : List Char := s.dropWhile isBlank

def trimRight (s : List Char) : List Char := (trimLeft s.reverse).reverse

def trim (s : List Char) : List Char := trimRight (trimLeft s)

def allBlank (s : List Char) : Bool := s.all isBlank

theorem trimLeft_eq_nil_iff {s : List Char} : trimLeft s = [] ↔ allBlank s := by
  induction s with
  | nil => simp [trimLeft, allBlank]
  | cons c r ih =>
    simp only [trimLeft, allBlank] at ih ⊢
    by_cases h : isBlank c <;> simp [h, ih]

theorem isBlank_head_trimLeft {s r : List Char} {c : Char} (h : trimLeft s = c :: r) :
    isBlank c = false := by
  induction s with
  | nil => simp [trimLeft] at h
  | cons d t ih =>
    simp only [trimLeft, List.dropWhile_cons] at h ih
    split at h
    · exact ih h
    · simp_all

theorem trim_eq_nil_iff {s : List Char} : trim s = [] ↔ allBlank s := by
  rw [← trimLeft_eq_nil_iff]
  refine ⟨fun h => ?_, fun h => by rw [trim, h]; rfl⟩
  match ht : trimLeft s with
  | [] => rfl
  | c :: r =>
    simp only [trim, trimRight, List.reverse_eq_nil_iff, trimLeft_eq_nil_iff, allBlank, ht,
      List.all_reverse, List.all_cons, isBlank_head_trimLeft ht, Bool.false_and] at h
    cases h

end DelayedJobs.Text
