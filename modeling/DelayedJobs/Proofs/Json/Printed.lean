import DelayedJobs.Json.Print
import DelayedJobs.Proofs.Json.Reading
import DelayedJobs.Proofs.Json.Texts
import Mathlib.Data.Nat.Digits.Defs

/-!
Printed values are scanned as what they say: strings with their escapes, whole numbers digit by
digit.
-/

namespace DelayedJobs.Json
open Source

def memberText (m : String × Json) : List Char := quote m.1 ++ ':' :: m.2.text

theorem membersText_eq (ms : List (String × Json)) :
    membersText ms = [','].intercalate (ms.map memberText) := by
  induction ms with
  | nil => rw [membersText]; rfl
  | cons m ms ih =>
    obtain ⟨name, v⟩ := m
    rw [List.map_cons, intercalate_cons]
    cases ms with
    | nil =>
      rw [membersText]
      exact (List.append_nil _).symm
    | cons next others =>
      rw [membersText, ih, List.map_cons, intercalate_cons, commas_cons]
      · rfl
      · nofun

theorem itemsText_eq (vs : List Json) : itemsText vs = [','].intercalate (vs.map text) := by
  induction vs with
  | nil => rw [itemsText]; rfl
  | cons v vs ih =>
    rw [List.map_cons, intercalate_cons]
    cases vs with
    | nil =>
      rw [itemsText]
      exact (List.append_nil _).symm
    | cons next others =>
      rw [itemsText, ih, List.map_cons, intercalate_cons, commas_cons]
      nofun

section Strings

def isEscapedUnit (c : Char) : Bool :=
  c < ' ' && c ∉ ['\x08', '\x0c', '\n', '\r', '\t']

def pieceOf (c : Char) : Piece := if isEscapedUnit c then .unit c.toNat else .char c

theorem hexUnit?_of_control {c : Char} (control : c < ' ') :
    hexUnit? '0' '0' (hexDigit (c.toNat / 16)) (hexDigit (c.toNat % 16)) = some c.toNat := by
  have digits : ∀ n < 32, hexUnit? '0' '0' (hexDigit (n / 16)) (hexDigit (n % 16)) = some n := by
    decide
  exact digits _ control

theorem scanPieces_escaped (c : Char) (s : List Char) :
    scanPieces (escape c ++ s) = (pieceOf c :: (scanPieces s).1, (scanPieces s).2) := by
  have short {e : Char} (known : escape? e = some c) (plain : isEscapedUnit c = false) :
      scanPieces ('\\' :: e :: s) = (pieceOf c :: (scanPieces s).1, (scanPieces s).2) := by
    rw [scanPieces_escape known, pieceOf, if_neg (by simp [plain])]
  unfold escape
  split_ifs with quote slash b f n r t control
  · exact short (e := '"') (by rw [quote]; rfl) (by rw [quote]; rfl)
  · exact short (e := '\\') (by rw [slash]; rfl) (by rw [slash]; rfl)
  · exact short (e := 'b') (by rw [b]; rfl) (by rw [b]; rfl)
  · exact short (e := 'f') (by rw [f]; rfl) (by rw [f]; rfl)
  · exact short (e := 'n') (by rw [n]; rfl) (by rw [n]; rfl)
  · exact short (e := 'r') (by rw [r]; rfl) (by rw [r]; rfl)
  · exact short (e := 't') (by rw [t]; rfl) (by rw [t]; rfl)
  · have unit : isEscapedUnit c = true := by simp [isEscapedUnit, control, b, f, n, r, t]
    rw [pieceOf, if_pos unit]
    exact scanPieces_unit (hexUnit?_of_control control) s
  · have plain : isEscapedUnit c = false := by simp [isEscapedUnit, control]
    rw [pieceOf, if_neg (by simp [plain])]
    exact scanPieces_char quote slash control s

theorem scanPieces_quote (cs rest : List Char) :
    scanPieces (cs.flatMap escape ++ '"' :: rest) = (cs.map pieceOf, .ok rest) := by
  induction cs with
  | nil => rfl
  | cons c cs ih => rw [List.flatMap_cons, List.append_assoc, scanPieces_escaped, ih, List.map_cons]

theorem not_isHigh_of_control {c : Char} (unit : isEscapedUnit c = true) :
    isHigh c.toNat = false ∧ isLow c.toNat = false := by
  have control : c.toNat < 32 := (of_decide_eq_true (Bool.and_eq_true_iff.mp unit).1 : c < ' ')
  simp only [isHigh, isLow, Bool.and_eq_false_iff, decide_eq_false_iff_not]
  omega

theorem joinUnits_unit {n : Nat} (plain : isHigh n = false ∧ isLow n = false) (ps : List Piece) :
    joinUnits (.unit n :: ps) = (joinUnits ps).map (Char.ofNat n :: ·) := by
  obtain ⟨high, low⟩ := plain
  cases ps with
  | nil => simp [joinUnits, high, low]
  | cons p ps => cases p <;> simp [joinUnits, high, low]

theorem joinUnits_pieceOf (cs : List Char) : joinUnits (cs.map pieceOf) = some cs := by
  induction cs with
  | nil => rfl
  | cons c cs ih =>
    rw [List.map_cons, pieceOf]
    split
    next unit =>
      rw [joinUnits_unit (not_isHigh_of_control unit), ih, Char.ofNat_toNat]
      rfl
    next =>
      rw [joinUnits, ih]
      rfl

theorem joinAll_pieceOf (s : String) : joinAll (s.toList.map pieceOf) = some s := by
  have low : endsHigh (s.toList.map pieceOf) = false := by
    rw [endsHigh, List.getLast?_map]
    cases s.toList.getLast? with
    | none => rfl
    | some c =>
      rw [Option.map_some, pieceOf]
      split_ifs with unit
      · exact (not_isHigh_of_control unit).1
      · rfl
  rw [joinAll, if_neg (by simp [low]), joinUnits_pieceOf, Option.map_some, String.ofList_toList]

theorem names_quote (s : String) : Names (quote s) s :=
  ⟨s.toList.flatMap escape ++ ['"'], s.toList.map pieceOf, [], rfl, scanPieces_quote _ [],
    joinAll_pieceOf s, rfl⟩

theorem scans_quote (s : String) : Scans (quote s) (.string (some s)) := by
  intro rest n stops steps
  obtain ⟨k, rfl⟩ : ∃ k, n = k + 1 := ⟨n - 1, by omega⟩
  refine ⟨rest, ?_, rfl⟩
  have pieces : scanString (s.toList.flatMap escape ++ '"' :: rest) =
      (.string (some s), some rest) := by
    rw [scanString, scanPieces_quote]
    simp only [joinAll_pieceOf]
  rw [scan_cons (c := '"') k rfl]
  simpa using pieces

theorem scans_string (s : String) : Scans (Json.string s).text (.string (some s)) := by
  rw [text]
  exact scans_quote s

theorem tells_textOf {α : Type} {f : String → Option α} {s : String} {a : α}
    (reads : f s = some a) :
    Tells (Json.string s).text (Reader.textOf f) a :=
  ⟨_, scans_string s, fun _ => Reader.textOf_of_eq_some reads⟩

end Strings

theorem scans_object {ms : List (String × Json)} {vs : List Source}
    (aligned : List.Forall₂ (fun m v => Scans m.2.text v) ms vs) :
    Scans (Json.object ms).text
      (.object (List.zipWith (fun m v => (some m.1, v)) ms vs) .closed) := by
  have members : List.Forall₂ ScansMember (ms.map memberText)
      (List.zipWith (fun m v => (m.1, v)) ms vs) := by
    induction aligned with
    | nil => exact .nil
    | @cons m v _ _ scans _ ih => exact .cons ⟨_, _, rfl, names_quote m.1, scans⟩ ih
  have whole := Scans.object members
  rw [List.map_zipWith] at whole
  rw [text, membersText_eq]
  exact whole

section Numbers
variable {n : Nat} {ds rest : List Char}

theorem le_ofDigitChars (ds : List Char) (v : Nat) : v ≤ Nat.ofDigitChars 10 ds v := by
  induction ds generalizing v with
  | nil => exact le_rfl
  | cons d ds ih =>
    rw [Nat.ofDigitChars_cons]
    exact le_trans (by omega) (ih _)

theorem foldl_addWhole (v : Nat) (fits : Nat.ofDigitChars 10 ds v < Word.count64) :
    ds.foldl Numeral.Significand.addWhole { value := v } =
      { value := Nat.ofDigitChars 10 ds v } := by
  induction ds generalizing v with
  | nil => rfl
  | cons d ds ih =>
    rw [Nat.ofDigitChars_cons] at fits ⊢
    have room := lt_of_le_of_lt (le_ofDigitChars ds _) fits
    have full : ¬(false || decide (Word.count64 ≤ 10 * v + Numeral.Significand.digit d)) =
        true := by
      rw [Bool.false_or, decide_eq_true_iff]
      exact Nat.not_le.mpr room
    rw [List.foldl_cons, Numeral.Significand.addWhole, if_neg full]
    exact ih _ fits

theorem head_naturalText (positive : 0 < n) : (naturalText n).head? ≠ some '0' := by
  induction n using Nat.strong_induction_on with
  | _ n ih =>
    rw [naturalText]
    by_cases small : n < 10
    · rw [Nat.toDigits_of_lt_base small]
      have digits : ∀ n < 10, 0 < n → [Nat.digitChar n].head? ≠ some '0' := by decide
      exact digits n small positive
    · rw [Nat.toDigits_of_base_le (by decide) (by omega), List.head?_append]
      have lower := ih (n / 10) (by omega) (by omega)
      rw [naturalText] at lower
      cases front : (Nat.toDigits 10 (n / 10)).head? with
      | none => exact absurd (List.head?_eq_none_iff.mp front) Nat.toDigits_ne_nil
      | some c =>
        rw [front] at lower
        exact lower

theorem isDigit_naturalText : ∀ c ∈ naturalText n, c.isDigit = true := Text.isDigit_toDigits n

theorem behindWhole_stops (n : Numeral) (stops : Stops rest) :
    behindWhole n rest = (.number n, some rest) := by
  cases rest with
  | nil => rfl
  | cons c r =>
    rw [behindWhole, if_neg stops.cons.2.1, behindFraction, if_neg (by simp [stops.cons.2.2])]

theorem scanNumber_naturalText (negative : Bool) (n : Nat) (stops : Stops rest) :
    scanNumber negative (naturalText n ++ rest) =
      (.number { negative, whole := naturalText n }, some rest) := by
  have some_ : naturalText n ≠ [] := Nat.toDigits_ne_nil
  rw [scanNumber_eq, withDigits, Text.takeWhile_all_digits isDigit_naturalText stops.ends,
    Text.dropWhile_all_digits isDigit_naturalText stops.ends, if_neg some_]
  split
  next c cs zero =>
    obtain rfl | positive := Nat.eq_zero_or_pos n
    · cases zero
    · exact absurd (by rw [zero]; rfl) (head_naturalText positive)
  next => exact behindWhole_stops _ stops

theorem whole64_naturalText (fits : n < Word.count64) (negative : Bool) :
    ({ negative, whole := naturalText n } : Numeral).whole64 = { value := n } := by
  have value : Nat.ofDigitChars 10 (naturalText n) 0 = n :=
    Nat.ofDigitChars_toDigits (by decide) (by decide)
  rw [Numeral.whole64, foldl_addWhole 0 (by rw [value]; exact fits), value]

theorem value?_naturalText (fits : n < Word.count64) :
    ({ whole := naturalText n } : Numeral).value? = some (.int n) := by
  rw [Numeral.value?, whole64_naturalText fits]
  rfl

theorem value?_negative (positive : 0 < n) (fits : n ≤ Word.count63) :
    ({ negative := true, whole := naturalText n } : Numeral).value? = some (.int (-n)) := by
  rw [Numeral.value?, whole64_naturalText (by simp only [Word.count63, Word.count64] at *; omega)]
  simp [positive, fits]

theorem scan_digit {c : Char} (k : Nat) (digit : c.isDigit = true) (s : List Char) :
    scan (k + 1) (c :: s) = scanNumber false (c :: s) := by
  have other {d : Char} (plain : d.isDigit = false) : c ≠ d := by
    rintro rfl
    rw [plain] at digit
    cases digit
  have visible : isSpace c = false := by
    simp [isSpace, other (d := ' ') rfl, other (d := '\n') rfl, other (d := '\t') rfl,
      other (d := '\r') rfl]
  rw [scan_cons k (skipSpace_cons visible s), if_neg (other rfl), if_neg (other rfl),
    if_neg (other rfl), if_neg (other rfl), if_neg (other rfl), if_neg (other rfl),
    if_neg (other rfl), if_pos digit]

def numeralOf (i : Int) : Numeral := { negative := decide (i < 0), whole := naturalText i.natAbs }

theorem scans_intText (i : Int) : Scans (intText i) (.number (numeralOf i)) := by
  intro rest n stops steps
  obtain ⟨k, rfl⟩ : ∃ k, n = k + 1 := ⟨n - 1, by omega⟩
  refine ⟨rest, ?_, rfl⟩
  rw [intText, numeralOf]
  split_ifs with negative
  · rw [List.cons_append, scan_cons (c := '-') k rfl]
    simpa [negative] using scanNumber_naturalText true i.natAbs stops
  · cases digits : naturalText i.natAbs with
    | nil => exact absurd digits Nat.toDigits_ne_nil
    | cons c cs =>
      have digit : c.isDigit = true :=
        isDigit_naturalText c (by rw [digits]; exact List.mem_cons_self)
      rw [List.cons_append, scan_digit k digit, ← List.cons_append, ← digits,
        scanNumber_naturalText false _ stops, decide_eq_false negative]

theorem value?_numeralOf {i : Int} (low : -Word.count63 ≤ i) (high : i < Word.count64) :
    (numeralOf i).value? = some (.int i) := by
  rw [numeralOf]
  by_cases negative : i < 0
  · rw [decide_eq_true negative, value?_negative (by omega) (by omega)]
    congr 2
    omega
  · rw [decide_eq_false negative]
    refine (value?_naturalText (by omega)).trans ?_
    congr 2
    omega

theorem tells_natural {bound : Nat} (fits : n < bound) (word : bound ≤ Word.count64) :
    Tells (Json.ofNat n).text (Reader.natural bound) n := by
  have value := value?_numeralOf (i := n) (by simp only [Word.count63]; omega)
    (by exact_mod_cast lt_of_lt_of_le fits word)
  refine ⟨.number (numeralOf n), ?_, fun depth => Reader.natural_of_value value fits⟩
  rw [ofNat, text]
  exact scans_intText n

def ReadsBack (x : Float) : Prop :=
  parse (print (.number (.real x))) = .ok (.number (.real x))

instance (x : Float) : Decidable (ReadsBack x) :=
  match read : parse (print (.number (.real x))) with
  | .ok (.number (.real y)) => decidable_of_iff (y = x) (by rw [ReadsBack, read]; simp)
  | .ok (.number (.int _)) | .ok .null | .ok (.bool _) | .ok (.string _) | .ok (.array _)
  | .ok (.object _) | .error _ => .isFalse (by rw [ReadsBack, read]; simp)

theorem scans_realText {x : Float} (back : ReadsBack x) :
    ∃ n : Numeral, Scans (realText x) (.number n) ∧ n.value? = some (.real x) := by
  have number {v : Source} {depth : Nat} (read : v.read depth = .ok (.number (.real x))) :
      ∃ n : Numeral, v = .number n ∧ n.value? = some (.real x) := by
    cases v with
    | number n =>
      obtain ⟨y, value, same⟩ := read_number_eq_ok_iff.mp read
      cases same
      exact ⟨n, rfl, value⟩
    | string =>
      obtain ⟨_, -, same⟩ := read_string_eq_ok_iff.mp read
      cases same
    | array =>
      obtain ⟨-, _, -, -, same⟩ := read_array_eq_ok_iff.mp read
      cases same
    | object =>
      obtain ⟨-, _, -, -, same⟩ := read_object_eq_ok_iff.mp read
      cases same
    | null | bool | broken => cases read
  obtain ⟨v, scans, read⟩ := scans_of_run back fun v read => by
    obtain ⟨n, rfl, -⟩ := number read
    rfl
  obtain ⟨n, rfl, value⟩ := number read
  exact ⟨n, by simpa [print, text, Number.text] using scans, value⟩

end Numbers
end DelayedJobs.Json
