import DelayedJobs.Proofs.Decimal.Finite
import DelayedJobs.Proofs.Json.Printed
import Mathlib.Data.String.Basic

/-!
Values that have a text: whole numbers of 64 bits, objects with their names in order, arrays and
objects nested no deeper than a reader goes. Every value that is read is one, and from its text it
is read again.
-/

namespace DelayedJobs.Json
open Source Rounding

def Ordered (members : List (String × Json)) : Prop := members.Pairwise fun a b => a.1 < b.1

instance (members : List (String × Json)) : Decidable (Ordered members) :=
  inferInstanceAs (Decidable (members.Pairwise _))

/-- A value with at most `depth` arrays and objects inside each other, and `good` doubles. -/
inductive Within (good : Float → Prop) : Json → Nat → Prop
  | null {depth : Nat} : Within good .null depth
  | bool (b : Bool) {depth : Nat} : Within good (.bool b) depth
  | int {i : Int} {depth : Nat} (low : -Word.count63 ≤ i) (high : i < Word.count64) :
    Within good (.number (.int i)) depth
  | real {x : Float} {depth : Nat} (fine : good x) : Within good (.number (.real x)) depth
  | string (s : String) {depth : Nat} : Within good (.string s) depth
  | array {items : List Json} {depth : Nat} (all : ∀ v ∈ items, Within good v depth) :
    Within good (.array items) (depth + 1)
  | object {members : List (String × Json)} {depth : Nat} (ordered : Ordered members)
    (all : ∀ m ∈ members, Within good m.2 depth) : Within good (.object members) (depth + 1)

mutual

def reals : Json → List Float
  | null | bool _ | string _ | number (.int _) => []
  | number (.real x) => [x]
  | array items => realsOfItems items
  | object members => realsOfMembers members

def realsOfItems : List Json → List Float
  | [] => []
  | v :: rest => reals v ++ realsOfItems rest

def realsOfMembers : List (String × Json) → List Float
  | [] => []
  | (_, v) :: rest => reals v ++ realsOfMembers rest

end

theorem realsOfItems_eq (items : List Json) : realsOfItems items = items.flatMap reals := by
  induction items with
  | nil => rw [realsOfItems]; rfl
  | cons v rest ih => rw [realsOfItems, ih, List.flatMap_cons]

theorem realsOfMembers_eq (members : List (String × Json)) :
    realsOfMembers members = members.flatMap fun m => m.2.reals := by
  induction members with
  | nil => rw [realsOfMembers]; rfl
  | cons m rest ih => rw [realsOfMembers, ih, List.flatMap_cons]

def RealsReadBack (j : Json) : Prop := ∀ x ∈ j.reals, x.isFinite = true → ReadsBack x

instance (j : Json) : Decidable j.RealsReadBack := inferInstanceAs (Decidable (∀ x ∈ _, _))

variable {good better : Float → Prop} {j : Json} {depth : Nat}

theorem Within.of_reals (h : j.Within good depth) (more : ∀ x ∈ j.reals, good x → better x) :
    j.Within better depth := by
  induction h with
  | null => exact .null
  | bool b => exact .bool b
  | int low high => exact .int low high
  | real fine => exact .real (more _ (by simp [reals]) fine)
  | string s => exact .string s
  | array all ih =>
    rw [reals, realsOfItems_eq] at more
    exact .array fun v member => ih v member fun x inside =>
      more x (List.mem_flatMap_of_mem member inside)
  | object ordered all ih =>
    rw [reals, realsOfMembers_eq] at more
    exact .object ordered fun m member => ih m member fun x inside =>
      more x (List.mem_flatMap_of_mem member inside)

section Members
variable {name : String} {v : Json} {members : List (String × Json)}

theorem mem_insertMember {m : String × Json} (member : m ∈ insertMember name v members) :
    m = (name, v) ∨ m ∈ members := by
  induction members with
  | nil => exact .inl (List.mem_singleton.mp member)
  | cons first rest ih =>
    rw [insertMember] at member
    split_ifs at member with before same
    · exact List.mem_cons.mp member
    · exact (List.mem_cons.mp member).imp_right (List.mem_cons_of_mem _)
    · obtain rfl | later := List.mem_cons.mp member
      · exact .inr List.mem_cons_self
      · exact (ih later).imp_right (List.mem_cons_of_mem _)

theorem Ordered.insertMember (ordered : Ordered members) :
    Ordered (insertMember name v members) := by
  induction members with
  | nil => exact List.pairwise_singleton _ _
  | cons first rest ih =>
    obtain ⟨least, others⟩ := List.pairwise_cons.mp ordered
    rw [Json.insertMember]
    split_ifs with before same
    · refine List.pairwise_cons.mpr ⟨List.forall_mem_cons.mpr ⟨before, fun m member => ?_⟩, ordered⟩
      exact lt_trans before (least m member)
    · exact List.pairwise_cons.mpr ⟨fun m member => same ▸ least m member, others⟩
    · refine List.pairwise_cons.mpr ⟨fun m member => ?_, ih others⟩
      obtain rfl | old := mem_insertMember member
      · exact lt_of_le_of_ne (not_lt.mp before) (Ne.symm same)
      · exact least m old

theorem insertMember_of_lt (greatest : ∀ m ∈ members, m.1 < name) :
    insertMember name v members = members ++ [(name, v)] := by
  induction members with
  | nil => rfl
  | cons first rest ih =>
    obtain ⟨less, others⟩ := List.forall_mem_cons.mp greatest
    rw [insertMember, if_neg (lt_asymm less), if_neg (ne_of_gt less), ih others, List.cons_append]

end Members

section Reading

def Legible (x : Float) : Prop := ∃ n : Numeral, n.value? = some (.real x)

theorem value_addWhole_lt {s : Numeral.Significand} (c : Char) (fits : s.value < Word.count64) :
    (s.addWhole c).value < Word.count64 := by
  rw [Numeral.Significand.addWhole]
  split_ifs with full
  · exact fits
  · simp only [Bool.or_eq_true, decide_eq_true_eq, not_or, not_le] at full
    exact full.2

theorem value_addFraction_lt {s : Numeral.Significand} (c : Char) (fits : s.value < Word.count64) :
    (s.addFraction c).value < Word.count64 := by
  rw [Numeral.Significand.addFraction]
  split_ifs with full
  · exact fits
  · simp only [Bool.or_eq_true, decide_eq_true_eq, not_or, not_le] at full
    exact full.2

theorem value_foldl_lt {add : Numeral.Significand → Char → Numeral.Significand}
    (one : ∀ {s} c, s.value < Word.count64 → (add s c).value < Word.count64) (ds : List Char)
    {s : Numeral.Significand} (fits : s.value < Word.count64) :
    (ds.foldl add s).value < Word.count64 := by
  induction ds generalizing s with
  | nil => exact fits
  | cons d ds ih => exact ih (one d fits)

theorem value_whole64_lt (n : Numeral) : n.whole64.value < Word.count64 :=
  value_foldl_lt value_addWhole_lt _ (by decide)

theorem value_significand_lt (n : Numeral) : n.significand.value < Word.count64 :=
  value_foldl_lt value_addFraction_lt _ (value_whole64_lt n)

theorem Legible.isFinite {x : Float} (h : Legible x) : x.isFinite = true := by
  have negate {y : Float} (finite : y.isFinite = true) (negative : Bool) :
      (Numeral.negate negative y).isFinite = true := by
    cases negative with
    | false => exact finite
    | true => exact isFinite_neg finite
  obtain ⟨n, value⟩ := h
  rw [Numeral.value?] at value
  split at value
  · dsimp only at value
    split_ifs at value
    all_goals simp only [Option.some.injEq, Number.real.injEq, reduceCtorEq] at value
    rw [← value]
    exact isFinite_neg (bounded_ofNat (value_whole64_lt n)).isFinite
  · obtain ⟨y, read, same⟩ := Option.map_eq_some_iff.mp value
    cases same
    exact negate (isFinite_scaled (value_significand_lt n) read) _

theorem int_bounds {n : Numeral} {i : Int} (value : n.value? = some (.int i)) :
    -Word.count63 ≤ i ∧ i < Word.count64 := by
  have fits := value_whole64_lt n
  rw [Numeral.value?] at value
  simp only [Word.count63, Word.count64] at *
  split at value
  · by_cases negative : n.negative = true
    · rw [if_neg (not_not.mpr negative)] at value
      split at value
      next small =>
        cases value
        omega
      next => cases value
    · rw [if_pos negative] at value
      cases value
      omega
  · simp at value

theorem within_of_value {n : Numeral} {x : Number} (value : n.value? = some x) :
    (Json.number x).Within Legible depth := by
  cases x with
  | real x => exact .real ⟨n, value⟩
  | int i =>
    obtain ⟨low, high⟩ := int_bounds value
    exact .int low high

mutual

theorem within_of_read : ∀ {v : Source} {depth : Nat} {j : Json},
    Source.read v depth = .ok j → j.Within Legible depth
  | .null, _, _, same => by cases same; exact .null
  | .bool b, _, _, same => by cases same; exact .bool b
  | .number _, _, _, same => by
    obtain ⟨x, value, rfl⟩ := read_number_eq_ok_iff.mp same
    exact within_of_value value
  | .string _, _, _, same => by
    obtain ⟨t, -, rfl⟩ := read_string_eq_ok_iff.mp same
    exact .string t
  | .array items _, 0, _, same => absurd rfl (read_array_eq_ok_iff.mp same).1
  | .array items _, _ + 1, _, same => by
    obtain ⟨-, values, reads, -, rfl⟩ := read_array_eq_ok_iff.mp same
    exact .array (within_of_readItems reads)
  | .object _ _, 0, _, same => absurd rfl (read_object_eq_ok_iff.mp same).1
  | .object members _, _ + 1, _, same => by
    obtain ⟨-, values, reads, -, rfl⟩ := read_object_eq_ok_iff.mp same
    obtain ⟨ordered, all⟩ := within_of_readMembers reads .nil (List.forall_mem_nil _)
    exact .object ordered all
  | .broken _ _ _, _, _, same => by cases same

theorem within_of_readItems : ∀ {vs : List Source} {depth : Nat} {items : List Json},
    readItems vs depth = .ok items → ∀ j ∈ items, j.Within Legible depth
  | [], _, _, reads => by cases reads; exact List.forall_mem_nil _
  | v :: vs, _, _, reads => by
    simp only [readItems, bind_eq_ok_iff] at reads
    obtain ⟨first, read, others, rest, same⟩ := reads
    cases same
    exact List.forall_mem_cons.mpr ⟨within_of_read read, within_of_readItems rest⟩

theorem within_of_readMembers : ∀ {ms : List (Option String × Source)} {depth : Nat}
    {before members : List (String × Json)}, readMembers ms depth before = .ok members →
    Ordered before → (∀ m ∈ before, m.2.Within Legible depth) →
    Ordered members ∧ ∀ m ∈ members, m.2.Within Legible depth
  | [], _, _, _, reads, ordered, all => by cases reads; exact ⟨ordered, all⟩
  | (none, _) :: _, _, _, _, reads, _, _ => by cases reads
  | (some name, v) :: ms, _, _, _, reads, ordered, all => by
    simp only [readMembers, bind_eq_ok_iff] at reads
    obtain ⟨value, read, rest⟩ := reads
    refine within_of_readMembers rest ordered.insertMember fun m member => ?_
    obtain rfl | old := mem_insertMember member
    · exact within_of_read read
    · exact all m old

end

end Reading

section Printing

theorem scans_word {c : Char} {word : List Char} {v : Source}
    (starts : ∀ n s, scan (n + 1) (c :: s) = scanWord v word s) : Scans (c :: word) v := by
  intro rest n stops steps
  obtain ⟨k, rfl⟩ : ∃ k, n = k + 1 := ⟨n - 1, by omega⟩
  refine ⟨rest, ?_, rfl⟩
  rw [List.cons_append, starts]
  clear starts steps
  induction word with
  | nil => rw [List.nil_append, scanWord]
  | cons w ws ih => rw [List.cons_append, scanWord, if_pos rfl, ih]

theorem scans_null : Scans ['n', 'u', 'l', 'l'] .null :=
  scans_word fun n s => by rw [scan_cons (c := 'n') n rfl]; rfl

theorem readItems_map {tree : Json → Source} {items : List Json}
    (reads : ∀ v ∈ items, (tree v).read depth = .ok v) :
    readItems (items.map tree) depth = .ok items := by
  induction items with
  | nil => rfl
  | cons v rest ih =>
    obtain ⟨first, others⟩ := List.forall_mem_cons.mp reads
    rw [List.map_cons, readItems, first, ih others]
    rfl

theorem readMembers_map {tree : String × Json → Source} {before members : List (String × Json)}
    (reads : ∀ m ∈ members, (tree m).read depth = .ok m.2) (ordered : Ordered (before ++ members)) :
    readMembers (members.map fun m => (some m.1, tree m)) depth before =
      .ok (before ++ members) := by
  induction members generalizing before with
  | nil => rw [List.append_nil]; rfl
  | cons m rest ih =>
    obtain ⟨first, others⟩ := List.forall_mem_cons.mp reads
    have greatest : ∀ b ∈ before, b.1 < m.1 := fun b member =>
      (List.pairwise_append.mp ordered).2.2 b member m List.mem_cons_self
    rw [List.append_cons] at ordered ⊢
    rw [List.map_cons, readMembers, first]
    show readMembers _ depth (insertMember m.1 m.2 before) = _
    rw [insertMember_of_lt greatest]
    exact ih others ordered

theorem Within.scans (h : j.Within ReadsBack depth) :
    ∃ v, Scans j.text v ∧ v.read depth = .ok j := by
  induction h with
  | null =>
    refine ⟨.null, ?_, rfl⟩
    rw [text]
    exact scans_null
  | bool b =>
    refine ⟨.bool b, ?_, rfl⟩
    cases b <;> rw [text]
    · exact scans_word fun n s => by rw [scan_cons (c := 'f') n rfl]; rfl
    · exact scans_word fun n s => by rw [scan_cons (c := 't') n rfl]; rfl
  | @int i _ low high =>
    refine ⟨.number (numeralOf i), ?_,
      read_number_eq_ok_iff.mpr ⟨_, value?_numeralOf low high, rfl⟩⟩
    rw [text]
    exact scans_intText i
  | real back =>
    obtain ⟨n, scans, value⟩ := scans_realText back
    refine ⟨.number n, ?_, read_number_eq_ok_iff.mpr ⟨_, value, rfl⟩⟩
    rw [text]
    exact scans
  | string s =>
    exact ⟨.string (some s), scans_string s, read_string_eq_ok_iff.mpr ⟨s, rfl, rfl⟩⟩
  | @array items depth _ ih =>
    choose! tree scans reads using ih
    refine ⟨.array (items.map tree) .closed, ?_, ?_⟩
    · rw [text, itemsText_eq]
      refine Scans.array ?_
      rw [List.forall₂_map_left_iff, List.forall₂_map_right_iff, List.forall₂_same]
      exact scans
    · exact read_array_eq_ok_iff.mpr ⟨by omega, items, readItems_map reads, rfl, rfl⟩
  | @object members depth ordered _ ih =>
    choose! tree scans reads using ih
    refine ⟨.object (members.map fun m => (some m.1, tree m)) .closed, ?_, ?_⟩
    · have whole := scans_object (List.forall₂_map_right_iff.mpr (List.forall₂_same.mpr scans))
      rw [List.zipWith_map_right, List.zipWith_self] at whole
      exact whole
    · refine read_object_eq_ok_iff.mpr ⟨by omega, members, ?_, rfl, rfl⟩
      exact readMembers_map reads ordered

end Printing
end DelayedJobs.Json
