import DelayedJobs.Proofs.Text.Digits
import DelayedJobs.Proofs.Text.Trim

/-!
The texts that are read as durations: digits and the name of a unit, with white space around and
between them, as long as the number and the seconds that it makes are words of 64 bits. The duration
is exactly what is written. The text is cut behind its digits, at an offset in bytes that is never
inside a character.
-/

namespace DelayedJobs

namespace DurationUnit
variable {u : DurationUnit} {name : List Char} {size : Nat}

/-- The ways to write a unit; a number without one counts seconds. -/
def names : DurationUnit → List (List Char)
  | milliseconds => [['m', 's']]
  | seconds => [['s'], []]
  | minutes => [['m']]
  | hours => [['h']]
  | days => [['d']]

def nanos : DurationUnit → Nat
  | milliseconds => 1000000
  | seconds => 1000000000
  | minutes => 60 * 1000000000
  | hours => 3600 * 1000000000
  | days => 86400 * 1000000000

/-- Whether so many units are counted in words: their number, and their seconds unless the unit is
finer than a second. -/
def Fits (u : DurationUnit) (count : Nat) : Prop :=
  count < Word.count64 ∧ ∀ size, u.secondsIn? = some size → count * size < Word.count64

theorem ofText?_eq_some_iff : ofText? name = some u ↔ name ∈ u.names := by
  constructor
  · intro h
    rw [ofText?] at h
    split_ifs at h with ms s m hr d
    all_goals cases h
    · exact ms ▸ .head _
    · obtain rfl | rfl := s
      · exact .head _
      · exact .tail _ (.head _)
    · exact m ▸ .head _
    · exact hr ▸ .head _
    · exact d ▸ .head _
  · intro member
    cases u <;> simp only [names, List.mem_cons, List.not_mem_nil, or_false] at member
    case seconds => obtain rfl | rfl := member <;> rfl
    all_goals subst member; rfl

theorem nanos_of_coarse (coarse : u.secondsIn? = some size) : u.nanos = size * 1000000000 := by
  cases u <;> cases coarse <;> rfl

theorem nanos_of_fine (fine : u.secondsIn? = none) : u.nanos = 1000000 := by
  cases u <;> first | rfl | cases fine

theorem bare_of_mem_names (member : name ∈ u.names) : Text.Bare name := by
  have all : ∀ name ∈ u.names, Text.Bare name := by cases u <;> decide
  exact all name member

theorem ends_of_mem_names (member : name ∈ u.names) : Text.Ends name := by
  have all : ∀ name ∈ u.names, name.head?.all (fun c => !c.isDigit) = true := by
    cases u <;> decide
  exact all name member

end DurationUnit

structure WrittenDuration where
  front : List Char
  digits : List Char
  gap : List Char
  unit : DurationUnit
  name : List Char
  back : List Char
  blank_front : Text.allBlank front
  blank_gap : Text.allBlank gap
  blank_back : Text.allBlank back
  some_digits : digits ≠ []
  only_digits : ∀ c ∈ digits, c.isDigit = true
  names_unit : name ∈ unit.names

namespace WrittenDuration

def text (w : WrittenDuration) : List Char := w.front ++ w.digits ++ w.gap ++ w.name ++ w.back

def count (w : WrittenDuration) : Nat := Nat.ofDigitChars 10 w.digits 0

def Fits (w : WrittenDuration) : Prop := w.unit.Fits w.count

def nanos (w : WrittenDuration) : Nat := w.count * w.unit.nanos

end WrittenDuration

namespace Text
variable {s rest gap name : List Char}

theorem ends_of_blank (blank : allBlank gap) (ends : Ends name) : Ends (gap ++ name) := by
  cases gap with
  | nil => exact ends
  | cons c r =>
    have visible : c.isDigit = false := by
      cases digit : c.isDigit with
      | false => rfl
      | true =>
        have := (allBlank_iff.mp blank c (.head _)).symm.trans (not_isBlank_of_isDigit digit)
        cases this
    simp [Ends, visible]

theorem ends_trimRight (ends : Ends s) : Ends (trimRight s) := by
  obtain ⟨back, -, whole⟩ := exists_blank_back s
  cases cut : trimRight s with
  | nil => rfl
  | cons c r =>
    rw [cut] at whole
    rw [whole] at ends
    exact ends

theorem trim_digits_append (some_ : s ≠ []) (digits : ∀ c ∈ s, c.isDigit = true) :
    trim (s ++ rest) = s ++ trimRight rest := by
  have visible : ∀ c ∈ s, isBlank c = false := fun c member =>
    not_isBlank_of_isDigit (digits c member)
  have left : trimLeft (s ++ rest) = s ++ rest := by
    refine trimLeft_eq_self fun c first => ?_
    rw [List.head?_append_of_ne_nil _ some_] at first
    exact visible c (List.mem_of_mem_head? first)
  rw [trim, left, trimRight_append fun c last => visible c (List.mem_of_mem_getLast? last)]

theorem word64?_eq_some_iff {n : Nat} : word64? s = some n ↔
    s ≠ [] ∧ (∀ c ∈ s, c.isDigit = true) ∧ n < Word.count64 ∧ n = Nat.ofDigitChars 10 s 0 := by
  rw [word64?, Option.ite_none_right_eq_some, List.all_eq_true, digitsValue_eq, Option.some_inj]
  constructor
  · rintro ⟨⟨some_, digits, small⟩, rfl⟩
    exact ⟨some_, digits, small, rfl⟩
  · rintro ⟨some_, digits, small, rfl⟩
    exact ⟨⟨some_, digits, small⟩, rfl⟩

end Text

/-! The same text by its bytes. -/

namespace Text
variable {p : Char → Bool}

def byteLength : List Char → Nat
  | [] => 0
  | c :: r => c.utf8Size + byteLength r

def offset? (p : Char → Bool) : List Char → Option Nat
  | [] => none
  | c :: r => if p c then some 0 else (offset? p r).map (c.utf8Size + ·)

/-- Cuts a text behind so many bytes; none inside a character and behind the end. -/
def cutAt? : Nat → List Char → Option (List Char × List Char)
  | 0, s => some ([], s)
  | _ + 1, [] => none
  | n + 1, c :: r =>
    if c.utf8Size ≤ n + 1 then (cutAt? (n + 1 - c.utf8Size) r).map fun (a, b) => (c :: a, b)
    else none

theorem cutAt?_append (a b : List Char) : cutAt? (byteLength a) (a ++ b) = some (a, b) := by
  induction a with
  | nil => cases b <;> rfl
  | cons c r ih =>
    obtain ⟨n, size⟩ : ∃ n, c.utf8Size = n + 1 :=
      ⟨c.utf8Size - 1, (Nat.sub_add_cancel c.utf8Size_pos).symm⟩
    have total : byteLength (c :: r) = n + byteLength r + 1 := by
      rw [byteLength, size]
      omega
    have rest : n + byteLength r + 1 - (n + 1) = byteLength r := by omega
    rw [total, List.cons_append, cutAt?, size, if_pos (by omega), rest, ih]
    rfl

theorem offset?_getD (s : List Char) :
    (offset? p s).getD (byteLength s) = byteLength (s.takeWhile fun c => !p c) := by
  induction s with
  | nil => rfl
  | cons c r ih =>
    cases hit : p c with
    | true => simp [offset?, hit, byteLength]
    | false =>
      rw [List.takeWhile_cons_of_pos (by simp [hit]), offset?, hit]
      cases later : offset? p r <;>
        simp only [later, Option.getD_none, Option.getD_some] at ih <;>
        simp [byteLength, ih]

theorem cutAt?_offset (s : List Char) :
    cutAt? ((offset? p s).getD (byteLength s)) s =
      some (s.takeWhile fun c => !p c, s.dropWhile fun c => !p c) := by
  have parts := cutAt?_append (s.takeWhile fun c => !p c) (s.dropWhile fun c => !p c)
  rw [List.takeWhile_append_dropWhile] at parts
  rw [offset?_getD, parts]

end Text

namespace Duration
open Text
variable {d : Duration} {text number unit : List Char}

theorem ofParts_eq_ok_iff : ofParts text number unit = .ok d ↔
    ∃ (u : DurationUnit) (n : Nat), word64? number = some n ∧ trim unit ∈ u.names ∧ u.Fits n ∧
      d.nanos = n * u.nanos := by
  simp only [ofParts, ← DurationUnit.ofText?_eq_some_iff]
  cases counted : word64? number with
  | none => simp
  | some n =>
    have word : n < Word.count64 := (word64?_eq_some_iff.mp counted).2.2.1
    cases DurationUnit.ofText? (trim unit) with
    | none => simp
    | some u =>
      simp only [Option.some.injEq, exists_eq_left']
      cases fineness : u.secondsIn? with
      | none =>
        have fits : u.Fits n := ⟨word, fun size coarse => by cases fineness.symm.trans coarse⟩
        simp only [Except.ok.injEq, fits, true_and, DurationUnit.nanos_of_fine fineness,
          ← nanos_ofMillis word, Duration.ext_iff, eq_comm]
      | some size =>
        have fits : u.Fits n ↔ n * size < Word.count64 := by
          simp [DurationUnit.Fits, fineness, word]
        simp only [fits]
        split
        next small =>
          simp only [Except.ok.injEq, small, true_and, DurationUnit.nanos_of_coarse fineness,
            ← Nat.mul_assoc, ← nanos_ofSeconds small, Duration.ext_iff, eq_comm]
        next large => simp [large]

/-- Reads a duration by the bytes of its text; none if the text would be cut inside a character. -/
def parseBytes? (s : String) : Option (Except DurationFault Duration) := do
  let text := trim s.toList
  let offset := (offset? (fun c => !c.isDigit) text).getD (byteLength text)
  let (number, unit) ← cutAt? offset text
  return ofParts text number unit

theorem parseBytes?_eq (s : String) : parseBytes? s = some (parse s) := by
  simp only [parseBytes?, cutAt?_offset, Bool.not_not]
  rfl

theorem exists_written_of_parse {s : String} (read : parse s = .ok d) :
    ∃ w : WrittenDuration, w.text = s.toList ∧ w.Fits ∧ d.nanos = w.nanos := by
  obtain ⟨u, n, counted, named, fits, value⟩ := ofParts_eq_ok_iff.mp read
  obtain ⟨some_, digits, -, rfl⟩ := word64?_eq_some_iff.mp counted
  obtain ⟨front, back, frontBlank, backBlank, whole⟩ := exists_blank_ends s.toList
  obtain ⟨gap, inner, gapBlank, innerBlank, rest⟩ :=
    exists_blank_ends ((trim s.toList).dropWhile Char.isDigit)
  refine ⟨{
    front, digits := _, gap, unit := u, name := _, back := inner ++ back, names_unit := named
    blank_front := frontBlank, blank_gap := gapBlank
    blank_back := allBlank_append.mpr ⟨innerBlank, backBlank⟩
    some_digits := some_, only_digits := digits }, ?_, fits, value⟩
  conv_rhs =>
    rw [whole, ← List.takeWhile_append_dropWhile (p := Char.isDigit) (l := trim s.toList), rest]
  simp only [WrittenDuration.text, List.append_assoc]

theorem parse_of_written {s : String} {w : WrittenDuration} (text : w.text = s.toList)
    (fits : w.Fits) (value : d.nanos = w.nanos) : parse s = .ok d := by
  have trimmed : trim s.toList = w.digits ++ trimRight (w.gap ++ w.name) := by
    rw [← text, WrittenDuration.text, trim_append_blank w.blank_back, List.append_assoc,
      List.append_assoc, trim_blank_append w.blank_front,
      trim_digits_append w.some_digits w.only_digits]
  have ends : Ends (trimRight (w.gap ++ w.name)) :=
    ends_trimRight (ends_of_blank w.blank_gap (DurationUnit.ends_of_mem_names w.names_unit))
  have name : trim (trimRight (w.gap ++ w.name)) = w.name := by
    rw [trim_trimRight, trim_blank_append w.blank_gap,
      trim_eq_self (DurationUnit.bare_of_mem_names w.names_unit)]
  have counted : word64? w.digits = some w.count :=
    word64?_eq_some_iff.mpr ⟨w.some_digits, w.only_digits, fits.1, rfl⟩
  rw [parse, trimmed, takeWhile_all_digits w.only_digits ends,
    dropWhile_all_digits w.only_digits ends, ofParts_eq_ok_iff]
  exact ⟨w.unit, w.count, counted, name.symm ▸ w.names_unit, fits, value⟩

/-- A text is read as the duration that it is written for in the grammar, and all other texts are
faults. No text is cut inside a character on the way. -/
theorem parse_reads_grammar (s : String) :
    (∀ d, parse s = .ok d ↔
      ∃ w : WrittenDuration, w.text = s.toList ∧ w.Fits ∧ d.nanos = w.nanos) ∧
    ((¬ ∃ w : WrittenDuration, w.text = s.toList ∧ w.Fits) → ∃ fault, parse s = .error fault) ∧
    parseBytes? s = some (parse s) := by
  refine ⟨fun d => ⟨exists_written_of_parse, ?_⟩, fun foreign => ?_, parseBytes?_eq s⟩
  · rintro ⟨w, text, fits, value⟩
    exact parse_of_written text fits value
  · cases result : parse s with
    | error fault => exact ⟨fault, rfl⟩
    | ok d =>
      obtain ⟨w, text, fits, -⟩ := exists_written_of_parse result
      exact absurd ⟨w, text, fits⟩ foreign

example : parse "\u3000007 h " = .ok (.ofSeconds 25200) := by cbv

end Duration
end DelayedJobs
