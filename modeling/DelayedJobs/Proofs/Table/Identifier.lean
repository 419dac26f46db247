import DelayedJobs.Table.Settings
import Mathlib.Computability.RegularExpressions

/-!
The names that are written into statements as they stand: the regular expression that they match,
and how many bytes they may have.
-/

namespace DelayedJobs.Identifier

def lowerCase : List Char := "abcdefghijklmnopqrstuvwxyz".toList

def digits : List Char := "0123456789".toList

def oneOf : List Char → RegularExpression Char
  | [] => 0
  | c :: rest => .char c + oneOf rest

/-- `[a-z_][a-z0-9_]*` -/
def grammar : RegularExpression Char :=
  oneOf (lowerCase ++ ['_']) * (oneOf (lowerCase ++ digits ++ ['_'])).star

variable {c : Char} {text chars : List Char}

theorem mem_oneOf : text ∈ (oneOf chars).matches' ↔ ∃ c ∈ chars, text = [c] := by
  induction chars with
  | nil => exact iff_of_false (Set.notMem_empty _) (by simp)
  | cons first rest ih =>
    rw [oneOf, RegularExpression.matches'_add, RegularExpression.matches'_char,
      Language.mem_add, ih]
    simp only [List.mem_cons, exists_eq_or_imp]
    rfl

theorem mem_star_oneOf : text ∈ (oneOf chars).star.matches' ↔ ∀ c ∈ text, c ∈ chars := by
  rw [RegularExpression.matches'_star, Language.mem_kstar]
  constructor
  · rintro ⟨parts, rfl, each⟩ c member
    obtain ⟨part, part_mem, c_mem⟩ := List.mem_flatten.mp member
    obtain ⟨d, d_mem, rfl⟩ := mem_oneOf.mp (each part part_mem)
    rwa [List.mem_singleton.mp c_mem]
  · intro all
    refine ⟨text.map ([·]), (List.flatMap_singleton' text).symm, fun part member => ?_⟩
    obtain ⟨c, here, rfl⟩ := List.mem_map.mp member
    exact mem_oneOf.mpr ⟨c, all c here, rfl⟩

theorem mem_iff_between {low high : Char} (between : (chars.all fun d => low ≤ d ∧ d ≤ high) = true)
    (all : ∀ n < high.toNat + 1, low.toNat ≤ n → Char.ofNat n ∈ chars) :
    c ∈ chars ↔ low ≤ c ∧ c ≤ high := by
  refine ⟨fun member => of_decide_eq_true (List.all_eq_true.mp between c member),
    fun ⟨above, below⟩ => ?_⟩
  rw [Char.le_def, UInt32.le_iff_toNat_le] at above below
  rw [← c.ofNat_toNat]
  exact all c.toNat (Nat.lt_succ_of_le below) above

theorem isStart_iff : isStart c = true ↔ c ∈ lowerCase ++ ['_'] := by
  have letter : c ∈ lowerCase ↔ 'a' ≤ c ∧ c ≤ 'z' := mem_iff_between (by decide) (by decide)
  simp [isStart, letter]

theorem isPart_iff : isPart c = true ↔ c ∈ lowerCase ++ digits ++ ['_'] := by
  have digit : c ∈ digits ↔ '0' ≤ c ∧ c ≤ '9' := mem_iff_between (by decide) (by decide)
  rw [isPart, Bool.or_eq_true, isStart_iff]
  simp [digit, or_assoc, or_comm (a := c = '_')]

theorem isPlain_iff (name : String) : isPlain name = true ↔
    name.toList ∈ grammar.matches' ∧ name.utf8ByteSize ≤ mostBytes := by
  rw [isPlain, grammar, RegularExpression.matches'_mul, Language.mem_mul]
  cases spelled : name.toList with
  | nil =>
    refine iff_of_false Bool.false_ne_true ?_
    rintro ⟨⟨first, match_first, rest, -, whole⟩, -⟩
    obtain ⟨c, -, rfl⟩ := mem_oneOf.mp match_first
    cases whole
  | cons c rest =>
    simp only [Bool.and_eq_true, decide_eq_true_eq, List.all_eq_true, isStart_iff, isPart_iff]
    constructor
    · rintro ⟨⟨short, first⟩, all⟩
      exact ⟨⟨[c], mem_oneOf.mpr ⟨c, first, rfl⟩, rest, mem_star_oneOf.mpr all, rfl⟩, short⟩
    · rintro ⟨⟨first, match_first, more, match_more, whole⟩, short⟩
      obtain ⟨d, member, rfl⟩ := mem_oneOf.mp match_first
      cases whole
      exact ⟨⟨short, member⟩, mem_star_oneOf.mp match_more⟩

end DelayedJobs.Identifier
