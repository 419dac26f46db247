import DelayedJobs.Proofs.Json.Scan

/-!
Texts that are scanned as a given tree wherever they stand, and arrays and objects put together from
such texts.
-/

namespace DelayedJobs.Json

namespace Source

/-- A text that is scanned as the tree `v`, whatever follows it. -/
def Scans (t : List Char) (v : Source) : Prop :=
  ∀ rest n, Stops rest → 3 * t.length + 3 ≤ n →
    ∃ r, scan n (t ++ rest) = (v, some r) ∧ skipSpace r = skipSpace rest

def Names (t : List Char) (name : String) : Prop :=
  ∃ u ps r, skipSpace t = '"' :: u ∧ scanPieces u = (ps, .ok r) ∧ joinAll ps = some name ∧
    skipSpace r = []

def ScansMember (t : List Char) (m : String × Source) : Prop :=
  ∃ name value, t = name ++ ':' :: value ∧ Names name m.1 ∧ Scans value m.2

/-- A text from which a reader takes `a`, without any room for arrays and objects. -/
def Tells {α : Type} (t : List Char) (read : Reader α) (a : α) : Prop :=
  ∃ v, Scans t v ∧ ∀ depth, read depth v = .ok a

def commas (ts : List (List Char)) : List Char := ts.flatMap (',' :: ·)

theorem commas_cons (t : List Char) (ts : List (List Char)) :
    commas (t :: ts) = ',' :: (t ++ commas ts) := rfl

theorem intercalate_cons (t : List Char) (ts : List (List Char)) :
    [','].intercalate (t :: ts) = t ++ commas ts := by
  induction ts generalizing t with
  | nil => simp [commas]
  | cons u us ih =>
    rw [commas_cons, ← ih u]
    simp [List.intercalate]

section Whole
variable {α : Type} {read : Reader α} {s : String} {t r : List Char} {v : Source} {a : α}

theorem run_eq_of_ofText (whole : ofText s = (v, false)) : read.run s = read depthLimit v := by
  simp only [Reader.run, whole]
  cases read depthLimit v <;> rfl

theorem run_eq_ok_iff :
    read.run s = .ok a ↔ read depthLimit (ofText s).1 = .ok a ∧ (ofText s).2 = false := by
  cases whole : ofText s with
  | mk v more =>
    simp only [Reader.run, whole]
    cases read depthLimit v with
    | error => exact ⟨nofun, fun both => nomatch both.1⟩
    | ok b =>
      cases more with
      | true => exact ⟨nofun, fun both => nomatch both.2⟩
      | false => exact ⟨fun same => ⟨same, rfl⟩, And.left⟩

theorem Scans.of_scan (scanned : scan (3 * t.length + 3) t = (v, some r))
    (blank : skipSpace r = []) :
    Scans t v := fun _ _ stops le =>
  ⟨r ++ _, (lasts stops _).value le scanned, skipSpace_append_nil blank _⟩

theorem Scans.run (h : Scans t v) (read : Reader α) :
    read.run (String.ofList t) = read depthLimit v := by
  obtain ⟨r, scanned, blank⟩ := h [] _ stops_nil le_rfl
  rw [List.append_nil] at scanned
  refine run_eq_of_ofText ?_
  rw [ofText, String.toList_ofList, scanned]
  simp [blank, show skipSpace [] = [] from rfl]

/-- A text that a reader takes stands for one whole value, if the reader takes no broken ones. -/
theorem scans_of_run (runs : read.run s = .ok a)
    (whole : ∀ v, read depthLimit v = .ok a → v.skip = .ok ()) :
    ∃ v, Scans s.toList v ∧ read depthLimit v = .ok a := by
  obtain ⟨taken, clean⟩ := run_eq_ok_iff.mp runs
  rw [ofText] at taken clean
  cases scanned : scan (3 * s.toList.length + 3) s.toList with
  | mk v rest =>
    rw [scanned] at taken clean
    cases rest with
    | none =>
      have broken := breaks_scan (3 * s.toList.length + 3) s.toList
      rw [scanned] at broken
      exact absurd (whole v taken) (broken rfl)
    | some r => exact ⟨v, Scans.of_scan scanned (by simpa using clean), taken⟩

theorem text_eq_ok_iff {depth : Nat} {name : String} :
    Reader.text depth v = .ok name ↔ v = .string (some name) := by
  constructor
  · intro taken
    unfold Reader.text at taken
    split at taken
    · cases taken
      rfl
    · cases taken
  · rintro rfl
    rfl

theorem names_of_run {name : String} (runs : Reader.text.run s = .ok name) :
    Names s.toList name := by
  obtain ⟨taken, clean⟩ := run_eq_ok_iff.mp runs
  have text := text_eq_ok_iff.mp taken
  rw [ofText] at text clean
  cases scanned : scan (3 * s.toList.length + 3) s.toList with
  | mk v rest =>
    rw [scanned] at text clean
    cases text
    cases rest with
    | none =>
      have broken := breaks_scan (3 * s.toList.length + 3) s.toList
      rw [scanned] at broken
      exact absurd rfl (broken rfl)
    | some r =>
      obtain ⟨u, opens, quoted⟩ := quote_of_scan scanned
      unfold scanString at quoted
      split at quoted
      next ps t pieces =>
        simp only [Prod.mk.injEq, string.injEq, Option.some.injEq] at quoted
        obtain ⟨joined, rfl⟩ := quoted
        exact ⟨u, ps, t, opens, pieces, joined, by simpa using clean⟩
      next => cases quoted

end Whole

section Nested
variable {t s : List Char} {ts : List (List Char)} {v : Source} {vs : List Source}
  {m : String × Source} {ms : List (String × Source)} {rest : List Char} {n : Nat}

theorem scan_skipSpace (n : Nat) (s : List Char) : scan n (skipSpace s) = scan n s := by
  cases n with
  | zero => rw [scan, scan]
  | succ n => rw [scan, scan, skipSpace_skipSpace]

theorem stops_commas {closing : Char} (closes : goesOn closing = false) :
    Stops (commas ts ++ closing :: rest) := by
  cases ts with
  | nil => simp [Stops, commas, closes]
  | cons t ts => rfl

theorem Scans.opens (h : Scans t v) (stops : Stops rest) :
    ∃ c u, skipSpace (t ++ rest) = c :: u ∧ c ≠ ']' := by
  obtain ⟨r, scanned, -⟩ := h rest _ stops le_rfl
  exact opens_of_scan scanned

theorem scanItem_of {ending : Ending} {left : Option (List Char)} (h : Scans t v)
    (stops : Stops rest) (front : skipSpace s = skipSpace (t ++ rest))
    (steps : 3 * t.length + 3 ≤ n)
    (others : ∀ r, skipSpace r = skipSpace rest → scanItems n false r = (vs, ending, left)) :
    scanItem (n + 1) s = (v :: vs, ending, left) := by
  obtain ⟨r, scanned, blank⟩ := h rest n stops steps
  rw [← scan_skipSpace, ← front, scan_skipSpace] at scanned
  rw [scanItem, scanned]
  simp only [others r blank]

theorem scanItems_of (items : List.Forall₂ Scans ts vs)
    (front : skipSpace s = commas ts ++ ']' :: rest) (steps : 3 * (commas ts).length + 3 ≤ n) :
    scanItems n false s = (vs, .closed, some rest) := by
  induction items generalizing s n with
  | nil =>
    obtain ⟨k, rfl⟩ : ∃ k, n = k + 1 := ⟨n - 1, by omega⟩
    exact scanItems_cons k false front
  | @cons t v ts vs item _ ih =>
    rw [commas_cons] at front steps
    simp only [List.length_cons, List.length_append] at steps
    obtain ⟨k, rfl⟩ : ∃ k, n = k + 2 := ⟨n - 2, by omega⟩
    have stops : Stops (commas ts ++ ']' :: rest) := stops_commas rfl
    obtain ⟨c, u, opens, open_⟩ := item.opens stops
    have comma : skipSpace s = ',' :: (t ++ (commas ts ++ ']' :: rest)) := by
      rw [front, List.cons_append, List.append_assoc]
    rw [scanItems_cons _ false comma, if_neg (by decide), if_neg Bool.false_ne_true,
      if_pos rfl, opens]
    simp only [if_neg open_]
    refine scanItem_of item stops (by rw [← opens, skipSpace_skipSpace]) (by omega)
      fun r blank => ?_
    refine ih (blank.trans ?_) (by omega)
    cases ts <;> rfl

theorem Scans.array (items : List.Forall₂ Scans ts vs) :
    Scans ('[' :: [','].intercalate ts ++ [']']) (.array vs .closed) := by
  intro rest n stops steps
  obtain ⟨k, rfl⟩ : ∃ k, n = k + 3 := ⟨n - 3, by omega⟩
  refine ⟨rest, ?_, rfl⟩
  have inside : scanItems (k + 2) true ([','].intercalate ts ++ ']' :: rest) =
      (vs, .closed, some rest) := by
    cases items with
    | nil => exact scanItems_cons _ true (c := ']') rfl
    | @cons t v ts vs item items =>
      rw [intercalate_cons] at steps ⊢
      have stops : Stops (commas ts ++ ']' :: rest) := stops_commas rfl
      obtain ⟨c, u, opens, open_⟩ := item.opens stops
      simp only [List.length_cons, List.length_append, List.length_nil] at steps
      rw [List.append_assoc, scanItems_cons _ true opens, if_neg open_, if_pos rfl]
      refine scanItem_of item stops (by rw [← opens, skipSpace_skipSpace]) (by omega)
        fun r blank => scanItems_of items (blank.trans ?_) (by omega)
      cases ts <;> rfl
  rw [scan_cons (c := '[') _ rfl]
  simp [inside]

theorem ScansMember.opens (h : ScansMember t m) :
    ∃ u, ∀ rest, skipSpace (t ++ rest) = '"' :: (u ++ rest) := by
  obtain ⟨name, value, rfl, ⟨u, -, -, opens, -⟩, -⟩ := h
  refine ⟨u ++ ':' :: value, fun rest => ?_⟩
  rw [List.append_assoc, skipSpace_append opens, List.append_assoc]

theorem scanMember_of {ending : Ending} {left : Option (List Char)} {u : List Char}
    {others : List (Option String × Source)} (h : ScansMember t m)
    (stops : Stops rest) (front : skipSpace (t ++ rest) = '"' :: u)
    (steps : 3 * t.length + 3 ≤ n)
    (more : ∀ r, skipSpace r = skipSpace rest → scanMembers n false r = (others, ending, left)) :
    scanMember (n + 1) u = ((some m.1, m.2) :: others, ending, left) := by
  obtain ⟨name, value, rfl, ⟨q, ps, r, opens, pieces, joined, blank⟩, whole⟩ := h
  have behind : u = q ++ (':' :: value ++ rest) := by
    rw [List.append_assoc, skipSpace_append opens] at front
    exact (List.cons.inj front).2.symm
  simp only [List.length_append, List.length_cons] at steps
  obtain ⟨left, scanned, after⟩ := whole rest n stops (by omega)
  have colon : skipSpace (r ++ (':' :: value ++ rest)) = ':' :: (value ++ rest) :=
    skipSpace_append_nil blank _
  rw [scanMember, behind, scanPieces_append pieces]
  simp only [colon, scanned, more left after, joined]

theorem scanMembers_of (members : List.Forall₂ ScansMember ts ms)
    (front : skipSpace s = commas ts ++ '\x7d' :: rest) (steps : 3 * (commas ts).length + 3 ≤ n) :
    scanMembers n false s = (ms.map fun m => (some m.1, m.2), .closed, some rest) := by
  induction members generalizing s n with
  | nil =>
    obtain ⟨k, rfl⟩ : ∃ k, n = k + 1 := ⟨n - 1, by omega⟩
    exact scanMembers_cons k false front
  | @cons t m ts ms member _ ih =>
    rw [commas_cons] at front steps
    simp only [List.length_cons, List.length_append] at steps
    obtain ⟨k, rfl⟩ : ∃ k, n = k + 2 := ⟨n - 2, by omega⟩
    obtain ⟨u, opens⟩ := member.opens
    have comma : skipSpace s = ',' :: (t ++ (commas ts ++ '\x7d' :: rest)) := by
      rw [front, List.cons_append, List.append_assoc]
    rw [scanMembers_cons _ false comma, if_neg (by decide), if_neg Bool.false_ne_true, if_pos rfl,
      opens]
    refine scanMember_of member (stops_commas rfl) (opens _) (by omega) fun r blank => ?_
    refine ih (blank.trans ?_) (by omega)
    cases ts <;> rfl

theorem Scans.object (members : List.Forall₂ ScansMember ts ms) :
    Scans ('\x7b' :: [','].intercalate ts ++ ['\x7d'])
      (.object (ms.map fun m => (some m.1, m.2)) .closed) := by
  intro rest n stops steps
  obtain ⟨k, rfl⟩ : ∃ k, n = k + 3 := ⟨n - 3, by omega⟩
  refine ⟨rest, ?_, rfl⟩
  have inside : scanMembers (k + 2) true ([','].intercalate ts ++ '\x7d' :: rest) =
      (ms.map fun m => (some m.1, m.2), .closed, some rest) := by
    cases members with
    | nil => exact scanMembers_cons _ true (c := '\x7d') rfl
    | @cons t m ts ms member members =>
      rw [intercalate_cons] at steps ⊢
      obtain ⟨u, opens⟩ := member.opens
      simp only [List.length_cons, List.length_append, List.length_nil] at steps
      rw [List.append_assoc, scanMembers_cons _ true (opens _), if_neg (by decide), if_pos rfl,
        if_pos rfl]
      refine scanMember_of member (stops_commas rfl) (opens _) (by omega)
        fun r blank => scanMembers_of members (blank.trans ?_) (by omega)
      cases ts <;> rfl
  rw [scan_cons (c := '\x7b') _ rfl]
  simp [inside]

end Nested
end Source
end DelayedJobs.Json
