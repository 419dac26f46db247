import DelayedJobs.Json.Read
import DelayedJobs.Proofs.Text.Digits
import Mathlib.Data.List.Forall2

/-!
What is scanned off the front of a text. A value that is whole stays the same when more text
follows, unless that goes on with a number, and when there are more steps than it takes. A text that
breaks off is one that nobody can skip.
-/

namespace DelayedJobs.Json.Source

def goesOn (c : Char) : Bool := c.isDigit || c == '.' || isExponentMark c

def Stops (rest : List Char) : Prop := rest.head?.all (fun c => !goesOn c) = true

theorem stops_nil : Stops [] := rfl

theorem Stops.cons {c : Char} {r : List Char} (h : Stops (c :: r)) :
    c.isDigit = false ∧ c ≠ '.' ∧ isExponentMark c = false := by
  simpa [Stops, goesOn, and_assoc] using h

theorem Stops.ends {rest : List Char} (h : Stops rest) : Text.Ends rest := by
  cases rest with
  | nil => rfl
  | cons c r => simp [Text.Ends, h.cons.1]

section Space
variable {s r rest : List Char} {c : Char}

theorem skipSpace_append (h : skipSpace s = c :: r) (rest : List Char) :
    skipSpace (s ++ rest) = c :: (r ++ rest) := by
  rw [skipSpace] at h
  rw [skipSpace, List.dropWhile_append, h]
  rfl

theorem skipSpace_append_nil (h : skipSpace s = []) (rest : List Char) :
    skipSpace (s ++ rest) = skipSpace rest := by
  rw [skipSpace] at h
  rw [skipSpace, List.dropWhile_append, h]
  rfl

@[simp] theorem skipSpace_skipSpace (s : List Char) : skipSpace (skipSpace s) = skipSpace s :=
  List.dropWhile_idempotent _ s

theorem skipSpace_cons (visible : isSpace c = false) (r : List Char) :
    skipSpace (c :: r) = c :: r := by
  rw [skipSpace, List.dropWhile_cons_of_neg (by simp [visible])]

end Space

section Numbers
variable {n : Numeral} {s r rest : List Char} {v : Source} {negative : Bool}
  {f : List Char → List Char → Source × Option (List Char)}

def withDigits (f : List Char → List Char → Source × Option (List Char)) (s : List Char) :
    Source × Option (List Char) :=
  if s.takeWhile Char.isDigit = [] then (if s = [] then cutNumber else malformed, none)
  else f (s.takeWhile Char.isDigit) (s.dropWhile Char.isDigit)

theorem withDigits_append (stops : Stops rest)
    (goes : ∀ digits tail v r, f digits tail = (v, some r) →
      f digits (tail ++ rest) = (v, some (r ++ rest)))
    (scanned : withDigits f s = (v, some r)) :
    withDigits f (s ++ rest) = (v, some (r ++ rest)) := by
  rw [withDigits] at scanned ⊢
  rw [Text.takeWhile_digits stops.ends, Text.dropWhile_digits stops.ends]
  by_cases none : s.takeWhile Char.isDigit = []
  · rw [if_pos none] at scanned
    cases scanned
  · rw [if_neg none] at scanned ⊢
    exact goes _ _ _ _ scanned

def scanPower (n : Numeral) (negative : Bool) : List Char → Source × Option (List Char) :=
  withDigits fun digits tail =>
    let e : Int := Text.digitsValue digits
    (number { n with exponent := some (if negative then -e else e) }, some tail)

theorem scanExponent_cons (n : Numeral) (c : Char) (s : List Char) : scanExponent n (c :: s) =
    if c = '+' then scanPower n false s
    else if c = '-' then scanPower n true s
    else scanPower n false (c :: s) := by
  have signed (negative : Bool) (t : List Char) :
      scanExponent n ((if negative then '-' else '+') :: t) = scanPower n negative t := by
    rw [scanPower, withDigits]
    cases negative <;> simp only [scanExponent, Bool.false_eq_true, if_false, if_true]
    all_goals
      cases t.takeWhile Char.isDigit with
      | nil => cases t <;> rfl
      | cons => rfl
  split_ifs with plus minus
  · rw [plus]
    exact signed false s
  · rw [minus]
    exact signed true s
  · rw [← signed]
    simp only [scanExponent, List.cons.injEq, plus, minus, false_and, imp_self, implies_true,
      Bool.false_eq_true, if_false]

theorem scanExponent_append (stops : Stops rest) (scanned : scanExponent n s = (v, some r)) :
    scanExponent n (s ++ rest) = (v, some (r ++ rest)) := by
  cases s with
  | nil => cases scanned
  | cons c t =>
    have goes (negative : Bool) (t : List Char) (scanned : scanPower n negative t = (v, some r)) :
        scanPower n negative (t ++ rest) = (v, some (r ++ rest)) := by
      refine withDigits_append stops (fun digits tail v r scanned => ?_) scanned
      cases scanned
      rfl
    rw [List.cons_append]
    rw [scanExponent_cons] at scanned ⊢
    split_ifs at scanned ⊢
    · exact goes _ _ scanned
    · exact goes _ _ scanned
    · exact goes _ (c :: t) scanned

def behindFraction (n : Numeral) : List Char → Source × Option (List Char)
  | c :: r => if isExponentMark c then scanExponent n r else (number n, some (c :: r))
  | [] => (number n, some [])

theorem behindFraction_append (stops : Stops rest) (scanned : behindFraction n s = (v, some r)) :
    behindFraction n (s ++ rest) = (v, some (r ++ rest)) := by
  cases s with
  | nil =>
    cases scanned
    cases rest with
    | nil => rfl
    | cons c t => exact if_neg (by simp [stops.cons.2.2])
  | cons c t =>
    rw [List.cons_append]
    rw [behindFraction] at scanned ⊢
    split
    next mark => exact scanExponent_append stops ((if_pos mark).symm.trans scanned)
    next mark =>
      cases (if_neg mark).symm.trans scanned
      rfl

theorem scanFraction_eq (n : Numeral) : scanFraction n =
    withDigits fun digits => behindFraction { n with fraction := digits } := by
  funext s
  unfold scanFraction
  rw [withDigits]
  cases s.takeWhile Char.isDigit with
  | nil => cases s <;> rfl
  | cons =>
    rw [if_neg (List.cons_ne_nil _ _)]
    cases s.dropWhile Char.isDigit <;> rfl

def behindWhole (n : Numeral) : List Char → Source × Option (List Char)
  | c :: r => if c = '.' then scanFraction n r else behindFraction n (c :: r)
  | [] => (number n, some [])

theorem behindWhole_append (stops : Stops rest) (scanned : behindWhole n s = (v, some r)) :
    behindWhole n (s ++ rest) = (v, some (r ++ rest)) := by
  cases s with
  | nil =>
    cases scanned
    cases rest with
    | nil => rfl
    | cons c t => exact (if_neg stops.cons.2.1).trans (behindFraction_append (s := []) stops rfl)
  | cons c t =>
    rw [List.cons_append]
    rw [behindWhole] at scanned ⊢
    split
    next point =>
      rw [if_pos point, scanFraction_eq] at scanned
      rw [scanFraction_eq]
      exact withDigits_append stops (fun _ _ _ _ => behindFraction_append stops) scanned
    next point =>
      rw [if_neg point] at scanned
      exact behindFraction_append (s := c :: t) stops scanned

theorem scanNumber_eq (negative : Bool) : scanNumber negative = withDigits fun whole tail =>
    match whole with
    | '0' :: _ :: _ => (malformed, none)
    | whole => behindWhole { negative, whole } tail := by
  funext s
  unfold scanNumber
  rw [withDigits]
  cases s.takeWhile Char.isDigit with
  | nil => cases s <;> rfl
  | cons d ds =>
    rw [if_neg (List.cons_ne_nil _ _)]
    by_cases zero : d = '0'
    · subst zero
      cases ds with
      | nil => cases s.dropWhile Char.isDigit <;> rfl
      | cons => rfl
    · cases s.dropWhile Char.isDigit <;> simp [zero, behindWhole, behindFraction]

theorem scanNumber_append (stops : Stops rest) (scanned : scanNumber negative s = (v, some r)) :
    scanNumber negative (s ++ rest) = (v, some (r ++ rest)) := by
  rw [scanNumber_eq] at scanned ⊢
  refine withDigits_append stops (fun whole tail v r scanned => ?_) scanned
  split at scanned
  · cases scanned
  · exact behindWhole_append stops scanned

end Numbers

section Strings
variable {s r rest : List Char} {ps : List Piece} {v : Source}

theorem scanPieces_unit {a b c d : Char} {n : Nat} (unit : hexUnit? a b c d = some n)
    (s : List Char) : scanPieces ('\\' :: 'u' :: a :: b :: c :: d :: s) =
      (.unit n :: (scanPieces s).1, (scanPieces s).2) := by
  simp only [scanPieces, unit]

theorem scanPieces_escape {c e : Char} (known : escape? c = some e) (s : List Char) :
    scanPieces ('\\' :: c :: s) = (.char e :: (scanPieces s).1, (scanPieces s).2) := by
  have plain : c ≠ 'u' := by
    rintro rfl
    cases known
  rw [scanPieces, if_neg plain, known]
  exact fun _ _ _ _ _ same => absurd same plain

theorem scanPieces_char {c : Char} (quote : c ≠ '"') (mark : c ≠ '\\') (visible : ¬c < ' ')
    (s : List Char) : scanPieces (c :: s) = (.char c :: (scanPieces s).1, (scanPieces s).2) := by
  rw [scanPieces, if_neg visible]
  · exact quote
  · exact fun same => absurd same mark
  · exact fun _ _ _ _ _ same => absurd same mark
  · exact fun _ _ same => absurd same mark

theorem scanPieces_append (scanned : scanPieces s = (ps, .ok r)) (rest : List Char) :
    scanPieces (s ++ rest) = (ps, .ok (r ++ rest)) := by
  fun_induction scanPieces s generalizing ps with
  | case1 | case3 | case5 | case6 | case8 | case9 => cases scanned
  | case2 r =>
    cases scanned
    rfl
  | case4 a b c d t n unit ps e more ih =>
    cases scanned
    simp only [List.cons_append]
    rw [scanPieces_unit unit, ih more]
  | case7 c t _ _ e known ps f more ih =>
    cases scanned
    simp only [List.cons_append]
    rw [scanPieces_escape known, ih more]
  | case10 c t quote mark _ slash visible ps e more ih =>
    cases scanned
    have escapes : c ≠ '\\' := by
      rintro rfl
      cases t with
      | nil => exact mark rfl rfl
      | cons => exact slash _ _ rfl rfl
    rw [List.cons_append, scanPieces_char quote escapes visible, ih more]

theorem scanString_append (scanned : scanString s = (v, some r)) (rest : List Char) :
    scanString (s ++ rest) = (v, some (r ++ rest)) := by
  unfold scanString at scanned ⊢
  split at scanned
  next ps t pieces =>
    cases scanned
    rw [scanPieces_append pieces rest]
  next => cases scanned

theorem scanWord_append {word : List Char} {named : Source}
    (scanned : scanWord named word s = (v, some r)) (rest : List Char) :
    scanWord named word (s ++ rest) = (v, some (r ++ rest)) := by
  fun_induction scanWord named word s with
  | case1 s =>
    cases scanned
    cases s <;> cases rest <;> rfl
  | case2 => cases scanned
  | case3 ws c s ih => exact (if_pos rfl).trans (ih scanned)
  | case4 => cases scanned

end Strings

section Values
variable {n m : Nat} {s t r rest : List Char} {c : Char} {v : Source} {first : Bool}

theorem scan_cons (n : Nat) (front : skipSpace s = c :: t) : scan (n + 1) s =
    if c = 'n' then scanWord null ['u', 'l', 'l'] t
    else if c = 't' then scanWord (bool true) ['r', 'u', 'e'] t
    else if c = 'f' then scanWord (bool false) ['a', 'l', 's', 'e'] t
    else if c = '"' then scanString t
    else if c = '-' then scanNumber true t
    else if c = '[' then
      (array (scanItems n true t).1 (scanItems n true t).2.1, (scanItems n true t).2.2)
    else if c = '\x7b' then
      (object (scanMembers n true t).1 (scanMembers n true t).2.1, (scanMembers n true t).2.2)
    else if c.isDigit then scanNumber false (c :: t) else (malformed, none) := by
  rw [scan, front]
  split
  next => contradiction
  iterate 7
    next same =>
      cases same
      rfl
  next n' t' f quote minus bracket brace same =>
    cases same
    simp_all

theorem scanItems_cons (n : Nat) (first : Bool) (front : skipSpace s = c :: t) :
    scanItems (n + 1) first s =
      if c = ']' then ([], .closed, some t)
      else if first then scanItem n (c :: t)
      else if c = ',' then
        match skipSpace t with
        | [] => ([], brokenEnding .truncated, none)
        | d :: u => if d = ']' then ([], brokenEnding .malformed, none) else scanItem n (d :: u)
      else ([], brokenEnding .malformed, none) := by
  rw [scanItems, front]
  split
  next => contradiction
  next same =>
    cases same
    rfl
  next ends same =>
    cases same
    rw [if_neg ends]
    split_ifs
    · rfl
    · cases skipSpace t with
      | nil => rfl
      | cons d u =>
        by_cases closes : d = ']'
        · subst closes
          rfl
        · simp [closes]
    · rfl

theorem scanMembers_cons (n : Nat) (first : Bool) (front : skipSpace s = c :: t) :
    scanMembers (n + 1) first s =
      if c = '\x7d' then ([], .closed, some t)
      else if first then
        if c = '"' then scanMember n t
        else ([], .broken .malformed .malformed (tagFault (scan n (c :: t)).1), none)
      else if c = ',' then
        match skipSpace t with
        | [] => ([], brokenEnding .truncated, none)
        | d :: u => if d = '"' then scanMember n u else ([], brokenEnding .malformed, none)
      else ([], brokenEnding .malformed, none) := by
  rw [scanMembers, front]
  split
  next => contradiction
  next same =>
    cases same
    rfl
  next ends same =>
    cases same
    rw [if_neg ends]
    split_ifs
    · rfl
    · rfl
    · cases skipSpace t with
      | nil => rfl
      | cons d u =>
        by_cases opens : d = '"'
        · subst opens
          rfl
        · simp [opens]
    · rfl

/-- What is scanned in `n` steps is scanned in more, with more text behind it. -/
structure Lasts (rest : List Char) (n : Nat) : Prop where
  value : ∀ {m s v r}, n ≤ m → scan n s = (v, some r) → scan m (s ++ rest) = (v, some (r ++ rest))
  items : ∀ {m first s vs ending r}, n ≤ m → scanItems n first s = (vs, ending, some r) →
    scanItems m first (s ++ rest) = (vs, ending, some (r ++ rest))
  item : ∀ {m s vs ending r}, n ≤ m → scanItem n s = (vs, ending, some r) →
    scanItem m (s ++ rest) = (vs, ending, some (r ++ rest))
  members : ∀ {m first s vs ending r}, n ≤ m → scanMembers n first s = (vs, ending, some r) →
    scanMembers m first (s ++ rest) = (vs, ending, some (r ++ rest))
  member : ∀ {m s vs ending r}, n ≤ m → scanMember n s = (vs, ending, some r) →
    scanMember m (s ++ rest) = (vs, ending, some (r ++ rest))

namespace Lasts

theorem scan_succ (h : Lasts rest n) (stops : Stops rest) (le : n ≤ m)
    (scanned : scan (n + 1) s = (v, some r)) :
    scan (m + 1) (s ++ rest) = (v, some (r ++ rest)) := by
  cases front : skipSpace s with
  | nil =>
    rw [scan, front] at scanned
    cases scanned
  | cons c t =>
    rw [scan_cons n front] at scanned
    rw [scan_cons m (skipSpace_append front rest)]
    split_ifs at scanned ⊢
    · exact scanWord_append scanned rest
    · exact scanWord_append scanned rest
    · exact scanWord_append scanned rest
    · exact scanString_append scanned rest
    · exact scanNumber_append stops scanned
    · cases inside : scanItems n true t with
      | mk vs more =>
        rw [inside] at scanned
        obtain ⟨ending, left⟩ := more
        cases scanned
        rw [h.items le inside]
    · cases inside : scanMembers n true t with
      | mk vs more =>
        rw [inside] at scanned
        obtain ⟨ending, left⟩ := more
        cases scanned
        rw [h.members le inside]
    · exact scanNumber_append (s := c :: t) stops scanned
    · cases scanned

theorem scanItems_succ (h : Lasts rest n) (le : n ≤ m) {vs : List Source} {ending : Ending}
    (scanned : scanItems (n + 1) first s = (vs, ending, some r)) :
    scanItems (m + 1) first (s ++ rest) = (vs, ending, some (r ++ rest)) := by
  cases front : skipSpace s with
  | nil =>
    rw [scanItems, front] at scanned
    cases scanned
  | cons c t =>
    rw [scanItems_cons n first front] at scanned
    rw [scanItems_cons m first (skipSpace_append front rest)]
    split_ifs at scanned ⊢
    · cases scanned
      rfl
    · exact h.item (s := c :: t) le scanned
    · cases next : skipSpace t with
      | nil =>
        rw [next] at scanned
        cases scanned
      | cons d u =>
        rw [next] at scanned
        rw [skipSpace_append next rest]
        simp only at scanned ⊢
        split_ifs at scanned ⊢
        · cases scanned
        · exact h.item (s := d :: u) le scanned
    · cases scanned

theorem scanItem_succ (h : Lasts rest n) (le : n ≤ m) {vs : List Source} {ending : Ending}
    (scanned : scanItem (n + 1) s = (vs, ending, some r)) :
    scanItem (m + 1) (s ++ rest) = (vs, ending, some (r ++ rest)) := by
  rw [scanItem] at scanned ⊢
  split at scanned
  next => cases scanned
  next item u first =>
    rw [h.value le first]
    cases others : scanItems n false u with
    | mk vs more =>
      obtain ⟨ending, left⟩ := more
      rw [others] at scanned
      cases scanned
      simp only [h.items le others]

theorem scanMembers_succ (h : Lasts rest n) (le : n ≤ m) {vs : List (Option String × Source)}
    {ending : Ending} (scanned : scanMembers (n + 1) first s = (vs, ending, some r)) :
    scanMembers (m + 1) first (s ++ rest) = (vs, ending, some (r ++ rest)) := by
  cases front : skipSpace s with
  | nil =>
    rw [scanMembers, front] at scanned
    cases scanned
  | cons c t =>
    rw [scanMembers_cons n first front] at scanned
    rw [scanMembers_cons m first (skipSpace_append front rest)]
    split_ifs at scanned ⊢
    · cases scanned
      rfl
    · exact h.member le scanned
    · cases scanned
    · cases next : skipSpace t with
      | nil =>
        rw [next] at scanned
        cases scanned
      | cons d u =>
        rw [next] at scanned
        rw [skipSpace_append next rest]
        simp only at scanned ⊢
        split_ifs at scanned ⊢
        · exact h.member le scanned
        · cases scanned
    · cases scanned

theorem scanMember_succ (h : Lasts rest n) (le : n ≤ m) {vs : List (Option String × Source)}
    {ending : Ending} (scanned : scanMember (n + 1) s = (vs, ending, some r)) :
    scanMember (m + 1) (s ++ rest) = (vs, ending, some (r ++ rest)) := by
  rw [scanMember] at scanned ⊢
  split at scanned
  next => cases scanned
  next ps u name =>
    rw [scanPieces_append name rest]
    split at scanned
    next w colon =>
      simp only [skipSpace_append colon rest]
      split at scanned
      next => cases scanned
      next value x first =>
        rw [h.value le first]
        cases others : scanMembers n false x with
        | mk vs more =>
          obtain ⟨ending, left⟩ := more
          rw [others] at scanned
          cases scanned
          simp only [h.members le others]
    next => cases scanned
    next => cases scanned

end Lasts

theorem lasts (stops : Stops rest) (n : Nat) : Lasts rest n := by
  induction n with
  | zero =>
    refine ⟨fun _ h => ?_, fun _ h => ?_, fun _ h => ?_, fun _ h => ?_, fun _ h => ?_⟩
    · rw [scan] at h
      cases h
    · rw [scanItems] at h
      cases h
    · rw [scanItem] at h
      cases h
    · rw [scanMembers] at h
      cases h
    · rw [scanMember] at h
      cases h
  | succ n ih =>
    have more {m : Nat} (le : n + 1 ≤ m) : ∃ k, n ≤ k ∧ m = k + 1 := ⟨m - 1, by omega, by omega⟩
    refine ⟨fun le h => ?_, fun le h => ?_, fun le h => ?_, fun le h => ?_, fun le h => ?_⟩
    all_goals obtain ⟨k, below, rfl⟩ := more le
    · exact ih.scan_succ stops below h
    · exact ih.scanItems_succ below h
    · exact ih.scanItem_succ below h
    · exact ih.scanMembers_succ below h
    · exact ih.scanMember_succ below h

end Values

section Outcomes
variable {P : Source × Option (List Char) → Prop}
  {f : List Char → List Char → Source × Option (List Char)}

theorem withDigits_cases (cut : P (cutNumber, none)) (bad : P (malformed, none))
    (goes : ∀ digits tail, P (f digits tail)) (s : List Char) : P (withDigits f s) := by
  rw [withDigits]
  split_ifs
  · exact cut
  · exact bad
  · exact goes _ _

theorem scanExponent_cases (cut : P (cutNumber, none)) (bad : P (malformed, none))
    (whole : ∀ n r, P (number n, some r)) (n : Numeral) (s : List Char) : P (scanExponent n s) := by
  cases s with
  | nil => exact cut
  | cons c t =>
    rw [scanExponent_cons]
    split_ifs <;> exact withDigits_cases cut bad (fun _ _ => whole _ _) _

theorem behindFraction_cases (cut : P (cutNumber, none)) (bad : P (malformed, none))
    (whole : ∀ n r, P (number n, some r)) (n : Numeral) (s : List Char) :
    P (behindFraction n s) := by
  cases s with
  | nil => exact whole _ _
  | cons c t =>
    rw [behindFraction]
    split_ifs
    · exact scanExponent_cases cut bad whole n t
    · exact whole _ _

theorem scanNumber_cases (cut : P (cutNumber, none)) (bad : P (malformed, none))
    (whole : ∀ n r, P (number n, some r)) (negative : Bool) (s : List Char) :
    P (scanNumber negative s) := by
  rw [scanNumber_eq]
  refine withDigits_cases cut bad (fun digits tail => ?_) s
  split
  · exact bad
  · cases tail with
    | nil => exact whole _ _
    | cons c t =>
      rw [behindWhole]
      split_ifs
      · rw [scanFraction_eq]
        exact withDigits_cases cut bad (fun _ _ => behindFraction_cases cut bad whole _ _) t
      · exact behindFraction_cases cut bad whole _ (c :: t)

theorem scanWord_cases {v : Source} (cut : P (cutWord, none)) (bad : P (malformed, none))
    (whole : ∀ r, P (v, some r)) (word s : List Char) : P (scanWord v word s) := by
  fun_induction scanWord v word s with
  | case1 => exact whole _
  | case2 => exact cut
  | case3 _ _ _ ih => exact ih
  | case4 => exact bad

end Outcomes

section Broken

/-- What a text breaks off with is nothing that can be skipped. -/
def Breaks (scanned : Source × Option (List Char)) : Prop :=
  scanned.2 = none → scanned.1.skip ≠ .ok ()

theorem breaks_scanNumber (negative : Bool) (s : List Char) : Breaks (scanNumber negative s) :=
  scanNumber_cases (fun _ => nofun) (fun _ => nofun) (fun _ _ => nofun) negative s

theorem breaks_scanWord {v : Source} (word s : List Char) : Breaks (scanWord v word s) :=
  scanWord_cases (fun _ => nofun) (fun _ => nofun) (fun _ => nofun) word s

theorem breaks_scanString (s : List Char) : Breaks (scanString s) := by
  unfold scanString
  split
  · nofun
  · exact fun _ => nofun

def Unfinished {α : Type} (scanned : α × Ending × Option (List Char)) : Prop :=
  scanned.2.2 = none → scanned.2.1.skip ≠ .ok ()

theorem unfinished_scanItems (n : Nat) :
    (∀ first s, Unfinished (scanItems n first s)) ∧ ∀ s, Unfinished (scanItem n s) := by
  induction n with
  | zero =>
    constructor
    · intro first s
      rw [scanItems]
      exact fun _ => nofun
    · intro s
      rw [scanItem]
      exact fun _ => nofun
  | succ n ih =>
    constructor
    · intro first s
      cases front : skipSpace s with
      | nil =>
        rw [scanItems, front]
        exact fun _ => nofun
      | cons c t =>
        rw [scanItems_cons n first front]
        split_ifs
        · nofun
        · exact ih.2 _
        · split
          · exact fun _ => nofun
          · split_ifs
            · exact fun _ => nofun
            · exact ih.2 _
        · exact fun _ => nofun
    · intro s
      rw [scanItem]
      split
      · exact fun _ => nofun
      · exact ih.1 false _

theorem unfinished_scanMembers (n : Nat) :
    (∀ first s, Unfinished (scanMembers n first s)) ∧ ∀ s, Unfinished (scanMember n s) := by
  induction n with
  | zero =>
    constructor
    · intro first s
      rw [scanMembers]
      exact fun _ => nofun
    · intro s
      rw [scanMember]
      exact fun _ => nofun
  | succ n ih =>
    constructor
    · intro first s
      cases front : skipSpace s with
      | nil =>
        rw [scanMembers, front]
        exact fun _ => nofun
      | cons c t =>
        rw [scanMembers_cons n first front]
        split_ifs
        · nofun
        · exact ih.2 _
        · exact fun _ => nofun
        · split
          · exact fun _ => nofun
          · split_ifs
            · exact ih.2 _
            · exact fun _ => nofun
        · exact fun _ => nofun
    · intro s
      rw [scanMember]
      split
      · exact fun _ => nofun
      · split
        · split
          · exact fun _ => nofun
          · exact ih.1 false _
        · exact fun _ => nofun
        · exact fun _ => nofun

theorem breaks_scan (n : Nat) (s : List Char) : Breaks (scan n s) := by
  cases n with
  | zero =>
    rw [scan]
    exact fun _ => nofun
  | succ n =>
    have ended {first : Except Fault Unit} {ending : Ending} (broken : ending.skip ≠ .ok ()) :
        (first >>= fun _ => ending.skip) ≠ .ok () := by
      cases first with
      | error => nofun
      | ok => exact broken
    cases front : skipSpace s with
    | nil =>
      rw [scan, front]
      exact fun _ => nofun
    | cons c t =>
      rw [scan_cons n front]
      split_ifs
      · exact breaks_scanWord _ _
      · exact breaks_scanWord _ _
      · exact breaks_scanWord _ _
      · exact breaks_scanString _
      · exact breaks_scanNumber _ _
      · exact fun none => ended ((unfinished_scanItems n).1 true t none)
      · exact fun none => ended ((unfinished_scanMembers n).1 true t none)
      · exact breaks_scanNumber _ _
      · exact fun _ => nofun

end Broken

theorem opens_of_scan {n : Nat} {s r : List Char} {v : Source} (scanned : scan n s = (v, some r)) :
    ∃ c t, skipSpace s = c :: t ∧ c ≠ ']' := by
  cases n with
  | zero =>
    rw [scan] at scanned
    cases scanned
  | succ n =>
    cases front : skipSpace s with
    | nil =>
      rw [scan, front] at scanned
      cases scanned
    | cons c t =>
      refine ⟨c, t, rfl, ?_⟩
      rintro rfl
      rw [scan_cons n front] at scanned
      cases scanned

theorem quote_of_scan {n : Nat} {s r : List Char} {text : Option String}
    (scanned : scan n s = (string text, some r)) :
    ∃ t, skipSpace s = '"' :: t ∧ scanString t = (string text, some r) := by
  cases n with
  | zero =>
    rw [scan] at scanned
    cases scanned
  | succ n =>
    have word (v : Source) (named : v ≠ string text) (word t : List Char) :
        scanWord v word t ≠ (string text, some r) :=
      scanWord_cases (P := (· ≠ (string text, some r))) nofun nofun
        (fun _ same => named (Prod.mk.inj same).1) word t
    have digits (negative : Bool) (t : List Char) :
        scanNumber negative t ≠ (string text, some r) :=
      scanNumber_cases (P := (· ≠ (string text, some r))) nofun nofun (fun _ _ => nofun) negative t
    cases front : skipSpace s with
    | nil =>
      rw [scan, front] at scanned
      cases scanned
    | cons c t =>
      rw [scan_cons n front] at scanned
      split_ifs at scanned with _ _ _ quote
      · exact absurd scanned (word .null nofun _ _)
      · exact absurd scanned (word (bool true) nofun _ _)
      · exact absurd scanned (word (bool false) nofun _ _)
      · exact ⟨t, by rw [quote], scanned⟩
      · exact absurd scanned (digits _ _)
      · cases scanned
      · cases scanned
      · exact absurd scanned (digits _ _)
      · cases scanned

end DelayedJobs.Json.Source
