import DelayedJobs.Proofs.Text.Digits
import DelayedJobs.Proofs.Text.Trim
import DelayedJobs.Proofs.Time.Calendar
import DelayedJobs.Time.Timestamp

/-!
Timestamps are read from the texts they are written as: each part is taken off the front of the text
that begins with it, whatever follows.
-/

namespace DelayedJobs.Timestamp
open Text

section Parts
variable {ds rest : List Char} {n k width : Nat}

theorem takeNumber_digits (digits : ∀ c ∈ ds, c.isDigit = true) (some_ : ds ≠ [])
    (fits : ds.length ≤ k) (ends : Ends rest) :
    takeNumber k (ds ++ rest) = some (digitsValue ds, rest) := by
  have taken : ((ds ++ rest).take k).takeWhile Char.isDigit = ds := by
    rw [List.take_append, List.take_of_length_le fits]
    exact takeWhile_all_digits digits (ends.take _)
  rw [takeNumber]
  simp only [taken, if_neg some_, List.drop_left]

theorem isDigit_pad (width n : Nat) : ∀ c ∈ pad width n, c.isDigit = true := by
  intro c member
  obtain zero | digit := List.mem_append.mp member
  · rw [List.eq_of_mem_replicate zero]
    rfl
  · exact isDigit_toDigits n c digit

theorem pad_ne_nil : pad width n ≠ [] := List.append_ne_nil_of_right_ne_nil _ Nat.toDigits_ne_nil

theorem length_pad (positive : 0 < width) (fits : n < 10 ^ width) :
    (pad width n).length = width := by
  have short := (Nat.length_toDigits_le_iff (by decide) positive).mpr fits
  rw [pad, List.length_append, List.length_replicate]
  omega

theorem digitsValue_pad : digitsValue (pad width n) = n := digitsValue_zeros _ n

theorem takeNumber_pad (fits : (pad width n).length ≤ k) (ends : Ends rest) :
    takeNumber k (pad width n ++ rest) = some (n, rest) := by
  rw [takeNumber_digits (isDigit_pad width n) pad_ne_nil fits ends, digitsValue_pad]

theorem trimLeft_pad : trimLeft (pad width n ++ rest) = pad width n ++ rest := by
  cases digits : pad width n with
  | nil => exact absurd digits pad_ne_nil
  | cons c r =>
    have digit : c.isDigit = true := isDigit_pad width n c (by simp [digits])
    exact trimLeft_cons (not_isBlank_of_isDigit digit)

theorem takePair_pad (small : n < 100) (ends : Ends rest) :
    takePair (pad 2 n ++ rest) = some (n, rest) := by
  rw [takePair, trimLeft_pad, takeNumber_pad (length_pad (by decide) small).le ends]

theorem takeYear_of_isDigit {c : Char} {r : List Char} (digit : c.isDigit = true) :
    takeYear (c :: r) = (takeNumber 4 (c :: r)).map fun (n, r) => (n, r) := by
  unfold takeYear
  split
  next same =>
    cases same
    cases digit
  next same =>
    cases same
    cases digit
  next => rfl

theorem takeYear_yearText (y : Int) (ends : Ends rest) :
    takeYear (trimLeft (yearText y ++ rest)) = some (y, rest) := by
  have signed : takeNumber (pad 4 y.natAbs ++ rest).length (pad 4 y.natAbs ++ rest) =
      some (y.natAbs, rest) :=
    takeNumber_pad (by rw [List.length_append]; omega) ends
  rw [yearText]
  split_ifs with plain negative
  · have fits : (pad 4 y.natAbs).length ≤ 4 := (length_pad (by decide) (by omega)).le
    have number := takeNumber_pad fits ends
    rw [trimLeft_pad]
    cases digits : pad 4 y.natAbs with
    | nil => exact absurd digits pad_ne_nil
    | cons c r =>
      have digit : c.isDigit = true := isDigit_pad 4 y.natAbs c (by simp [digits])
      rw [digits] at number
      rw [List.cons_append, takeYear_of_isDigit digit, ← List.cons_append, number, Option.map_some]
      simp only [Option.some.injEq, Prod.mk.injEq, and_true]
      omega
  · rw [List.cons_append, trimLeft_cons rfl, takeYear, signed, Option.map_some]
    simp only [Option.some.injEq, Prod.mk.injEq, and_true]
    omega
  · rw [List.cons_append, trimLeft_cons rfl, takeYear, signed, Option.map_some]
    simp only [Option.some.injEq, Prod.mk.injEq, and_true]
    omega

theorem takeFraction_pad (short : width ≤ 9) (positive : 0 < width) (fits : n < 10 ^ width)
    (ends : Ends rest) :
    takeFraction ('.' :: pad width n ++ rest) = some (n * 10 ^ (9 - width), rest) := by
  have length := length_pad positive fits
  have taken : ((pad width n ++ rest).take 9).takeWhile Char.isDigit = pad width n := by
    rw [List.take_append, List.take_of_length_le (by omega)]
    exact takeWhile_all_digits (isDigit_pad width n) (ends.take _)
  have left := dropWhile_all_digits (isDigit_pad width n) ends
  rw [List.cons_append, takeFraction]
  simp only [taken, if_neg pad_ne_nil, left, digitsValue_pad, length]
  rfl

theorem takeFraction_fractionText {nanos : Nat} (small : nanos < 1000000000) (ends : Ends rest)
    (noPoint : rest.head? ≠ some '.') :
    takeFraction (fractionText nanos ++ rest) = some (nanos, rest) := by
  rw [fractionText]
  split_ifs with none millis micros
  · rw [List.nil_append, none, takeFraction]
    rintro r rfl
    exact noPoint rfl
  · rw [takeFraction_pad (by decide) (by decide) (by omega) ends]
    congr 2
    omega
  · rw [takeFraction_pad (by decide) (by decide) (by omega) ends]
    congr 2
    omega
  · rw [takeFraction_pad (by decide) (by decide) (by omega) ends, Nat.pow_zero, Nat.mul_one]

theorem takeChar_self {c : Char} (visible : isBlank c = false) (r : List Char) :
    takeChar c (trimLeft (c :: r)) = some r := by
  rw [trimLeft_cons visible, takeChar, if_pos rfl]

end Parts

section Whole
variable {rest : List Char}

theorem takeDate_text {date : Date} (valid : date.Valid)
    (years : firstYear ≤ date.year ∧ date.year ≤ lastYear) (ends : Ends rest) :
    takeDate (yearText date.year ++ '-' :: pad 2 date.month ++ '-' :: pad 2 date.day ++ rest) =
      some (date, rest) := by
  obtain ⟨_, december, _, last⟩ := id valid
  have long : date.day ≤ 31 := by
    refine last.trans ?_
    unfold Date.daysInMonth
    split <;> first | decide | (split <;> decide)
  simp only [takeDate, List.append_assoc, List.cons_append, Option.bind_eq_bind]
  rw [takeYear_yearText _ (by rfl), Option.bind_some]
  simp only
  rw [takeChar_self (by rfl), Option.bind_some, takePair_pad (by omega) (by rfl), Option.bind_some]
  simp only
  rw [takeChar_self (by rfl), Option.bind_some, takePair_pad (by omega) ends, Option.bind_some]
  simp only
  rw [if_pos ⟨valid, years⟩]
  rfl

theorem takeTime_text {hour minute second nanos : Nat} (hours : hour ≤ 23) (minutes : minute ≤ 59)
    (seconds : second ≤ 60) (fraction : nanos < 1000000000) (ends : Ends rest)
    (noPoint : rest.head? ≠ some '.') :
    takeTime
        (pad 2 hour ++ ':' :: pad 2 minute ++ ':' :: pad 2 second ++ fractionText nanos ++ rest) =
      some ((hour * 3600 + minute * 60 + min second 59) * 1000000000 + nanos,
        second == 60, rest) := by
  have behind : Ends (fractionText nanos ++ rest) := by
    rw [fractionText]
    split_ifs <;> first | exact ends | rfl
  simp only [takeTime, List.append_assoc, List.cons_append, Option.bind_eq_bind]
  rw [takePair_pad (by omega) (by rfl), Option.bind_some]
  simp only
  rw [takeChar_self (by rfl), Option.bind_some, takePair_pad (by omega) (by rfl), Option.bind_some]
  simp only
  rw [takeChar_self (by rfl), Option.bind_some, takePair_pad (by omega) behind, Option.bind_some]
  simp only
  rw [takeFraction_fractionText fraction ends noPoint, Option.bind_some]
  simp only
  rw [if_pos ⟨hours, minutes, seconds⟩]
  rfl

theorem ofNanos?_nanos (t : Instant) : Instant.ofNanos? t.nanos = some t := by
  rw [Instant.ofNanos?, dif_pos ⟨t.earliest_le, t.le_latest⟩]

theorem mark_base (t : Timestamp) : mark t.leap t.base = some t := by
  rw [mark, dif_pos t.leap_ends_minute]

theorem nanos_of_parts (nanos : Int) {time : Nat}
    (ofDay : (nanos / 1000000000 % 86400).toNat = time) :
    nanos / 1000000000 / 86400 * 86400000000000 +
      (((time / 3600 * 3600 + time / 60 % 60 * 60 + time % 60) * 1000000000 +
        (nanos % 1000000000).toNat : Nat) : Int) = nanos := by
  omega

theorem shown_second {leap : Bool} {time second : Nat} (ends : leap = true → time % 60 = 59)
    (shown : time % 60 + (if leap then 1 else 0) = second) :
    min second 59 = time % 60 ∧ second ≤ 60 ∧ (second == 60) = leap := by
  rw [Bool.eq_iff_iff, beq_iff_eq]
  split_ifs at shown with leaps
  · have last := ends leaps
    exact ⟨by omega, by omega, iff_of_true (by omega) leaps⟩
  · exact ⟨by omega, by omega, iff_of_false (by omega) leaps⟩

theorem ofText?_toText (t : Timestamp) : ofText? t.toText = some t := by
  have earliest := t.base.earliest_le
  have latest := t.base.le_latest
  have ends := t.leap_ends_minute
  obtain ⟨days, date⟩ : ∃ d, t.base.nanos / 1000000000 / 86400 = d := ⟨_, rfl⟩
  obtain ⟨time, ofDay⟩ : ∃ n, (t.base.nanos / 1000000000 % 86400).toNat = n := ⟨_, rfl⟩
  obtain ⟨second, shown⟩ : ∃ n, time % 60 + (if t.leap then 1 else 0) = n := ⟨_, rfl⟩
  obtain ⟨cut, most, leap⟩ := shown_second (fun leaps => by have := ends leaps; omega) shown
  have text : t.toText = yearText (Date.ofDays days).year ++
      '-' :: pad 2 (Date.ofDays days).month ++ '-' :: pad 2 (Date.ofDays days).day ++
      'T' :: (pad 2 (time / 3600) ++ ':' :: pad 2 (time / 60 % 60) ++ ':' :: pad 2 second ++
        fractionText (t.base.nanos % 1000000000).toNat ++ ['Z']) := by
    simp only [toText, localText, List.append_assoc, List.cons_append, date, ofDay, shown]
  have years := Date.year_ofDays days (by omega) (by omega)
  have zone : takeZone (trimLeft ['Z']) = some (0, []) := by rfl
  rw [text, ofText?]
  simp only [Option.bind_eq_bind]
  rw [takeDate_text (Date.valid_ofDays days) years (by rfl), Option.bind_some]
  simp only
  rw [if_pos (.inl trivial), Option.bind_some,
    takeTime_text (by omega) (by omega) most (by omega) (by rfl) (by decide), Option.bind_some]
  simp only
  rw [zone, Option.bind_some]
  simp only
  rw [if_pos ⟨by rfl, by decide, by decide⟩, cut, Date.toDays_ofDays, Int.zero_mul, Int.sub_zero,
    ← date, nanos_of_parts t.base.nanos ofDay, ofNanos?_nanos, Option.bind_some, leap, mark_base]

theorem parse?_toText (t : Timestamp) : parse? (String.ofList t.toText) = some t := by
  rw [parse?, String.toList_ofList, ofText?_toText]

end Whole

end DelayedJobs.Timestamp
