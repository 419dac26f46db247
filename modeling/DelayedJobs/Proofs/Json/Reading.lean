import DelayedJobs.Json.Record

/-!
What readers make of the trees of texts.
-/

namespace DelayedJobs.Json

theorem bind_eq_ok_iff {α β : Type} {x : Except Fault α} {f : α → Except Fault β} {b : β} :
    (x >>= f) = .ok b ↔ ∃ a, x = .ok a ∧ f a = .ok b := by
  cases x with
  | error => exact ⟨nofun, nofun⟩
  | ok a => exact ⟨fun same => ⟨a, rfl, same⟩, fun ⟨_, rfl, same⟩ => same⟩

namespace Source
variable {items : List Source} {members : List (Option String × Source)} {ending : Ending}
  {depth : Nat} {j : Json}

theorem read_array_eq_ok_iff : (array items ending).read depth = .ok j ↔
    depth ≠ 0 ∧ ∃ values, readItems items (depth - 1) = .ok values ∧ ending.read = .ok () ∧
      .array values = j := by
  rw [read]
  by_cases none : depth = 0
  · rw [if_pos none]
    exact ⟨nofun, fun h => absurd none h.1⟩
  · rw [if_neg none, and_iff_right none]
    simp only [bind_eq_ok_iff]
    refine exists_congr fun values => and_congr_right fun _ => ?_
    exact ⟨fun ⟨_, ends, same⟩ => ⟨ends, Except.ok.inj same⟩,
      fun ⟨ends, same⟩ => ⟨(), ends, congrArg _ same⟩⟩

theorem read_object_eq_ok_iff : (object members ending).read depth = .ok j ↔
    depth ≠ 0 ∧ ∃ values, readMembers members (depth - 1) [] = .ok values ∧
      ending.read = .ok () ∧ .object values = j := by
  rw [read]
  by_cases none : depth = 0
  · rw [if_pos none]
    exact ⟨nofun, fun h => absurd none h.1⟩
  · rw [if_neg none, and_iff_right none]
    simp only [bind_eq_ok_iff]
    refine exists_congr fun values => and_congr_right fun _ => ?_
    exact ⟨fun ⟨_, ends, same⟩ => ⟨ends, Except.ok.inj same⟩,
      fun ⟨ends, same⟩ => ⟨(), ends, congrArg _ same⟩⟩

theorem read_number_eq_ok_iff {n : Numeral} : (number n).read depth = .ok j ↔
    ∃ x, n.value? = some x ∧ .number x = j := by
  rw [read]
  cases n.value? with
  | none => exact ⟨nofun, nofun⟩
  | some x => exact ⟨fun same => ⟨x, rfl, Except.ok.inj same⟩,
      fun ⟨_, rfl, same⟩ => congrArg _ same⟩

theorem read_string_eq_ok_iff {text : Option String} : (string text).read depth = .ok j ↔
    ∃ t, text = some t ∧ .string t = j := by
  rw [read.eq_def]
  cases text with
  | none => exact ⟨nofun, nofun⟩
  | some t => exact ⟨fun same => ⟨t, rfl, Except.ok.inj same⟩,
      fun ⟨_, rfl, same⟩ => congrArg _ same⟩

end Source

namespace Reader
variable {bound depth : Nat} {n : Numeral} {v : Nat}

theorem natural_of_value (value : n.value? = some (.int v)) (fits : v < bound) :
    natural bound depth (.number n) = .ok v := by
  simp [natural, value, fits]

theorem textOf_of_eq_some {α : Type} {f : String → Option α} {t : String} {a : α}
    (reads : f t = some a) : textOf f depth (.string (some t)) = .ok a := by
  simp only [textOf, text, reads, bind, Except.bind]
  rfl

theorem real_of_value {x : Float} (value : n.value? = some (.real x)) :
    real depth (.number n) = .ok x := by
  simp [real, value]

theorem map_of_ok {α β : Type} {read : Reader α} {s : Source} {a : α} (f : α → β)
    (reads : read depth s = .ok a) : read.map f depth s = .ok (f a) := by
  simp only [map, reads]
  rfl

theorem map_eq_ok_iff {α β : Type} {read : Reader α} {s : Source} {f : α → β} {b : β} :
    read.map f depth s = .ok b ↔ ∃ a, read depth s = .ok a ∧ f a = b := by
  simp only [map]
  cases read depth s with
  | error => exact ⟨nofun, nofun⟩
  | ok a => exact ⟨fun same => ⟨a, rfl, Except.ok.inj same⟩, fun ⟨_, rfl, same⟩ => congrArg _ same⟩

theorem map_map {α β γ : Type} (f : α → β) (g : β → γ) (read : Reader α) :
    (read.map f).map g = read.map (g ∘ f) := by
  funext depth s
  simp only [map]
  cases read depth s <;> rfl

end Reader

namespace Record
variable {σ : Type} {r : Record σ} {depth : Nat} {name : String} {f : RecordField σ} {s : Source}
  {rest : List (Option String × Source)} {seen : List String} {set : σ → σ} {a : σ}

theorem readMembers_field (found : r.field? name = some f) (fresh : name ∉ seen)
    (reads : f.read depth s = .ok set) :
    r.readMembers depth ((some name, s) :: rest) seen a =
      r.readMembers depth rest (name :: seen) (set a) := by
  rw [readMembers, found]
  simp only [if_neg fresh, reads]
  rfl

theorem readMembers_foreign (unknown : r.field? name = none) (lenient : r.open_ = true)
    (skipped : s.skip = .ok ()) :
    r.readMembers depth ((some name, s) :: rest) seen a = r.readMembers depth rest seen a := by
  rw [readMembers, unknown]
  simp only [lenient, skipped]
  rfl

theorem readItems_field {defaults : Bool} {ending : Ending} {fields : List (RecordField σ)}
    {items : List Source} (reads : f.read depth s = .ok set) :
    readItems depth defaults ending (f :: fields) (s :: items) a =
      readItems depth defaults ending fields items (set a) := by
  rw [readItems, reads]
  rfl

theorem readItems_put {α : Type} {read : Reader α} {put : α → σ → σ} {x : α}
    {required defaults : Bool}
    {ending : Ending} {fields : List (RecordField σ)} {items : List Source}
    (reads : read depth s = .ok x) :
    readItems depth defaults ending ({ name, required, read := read.map put } :: fields)
      (s :: items) a =
      readItems depth defaults ending fields items (put x a) :=
  readItems_field (Reader.map_of_ok put reads)

section Kept
variable {kept : σ → Prop}

/-- What every field keeps true of a record is true of it at the end. -/
theorem of_readMembers {all : List String} {b : σ}
    (keeps : ∀ f ∈ r.fields, ∀ s set, f.read depth s = .ok set → ∀ a, kept a → kept (set a))
    {members : List (Option String × Source)} (starts : kept a)
    (reads : r.readMembers depth members seen a = .ok (all, b)) : kept b := by
  induction members generalizing seen a with
  | nil =>
    cases reads
    exact starts
  | cons m rest ih =>
    obtain ⟨name, s⟩ := m
    cases name with
    | none => cases reads
    | some name =>
      rw [readMembers] at reads
      split at reads
      next f found =>
        dsimp only at reads
        split at reads
        · cases reads
        · obtain ⟨set, read, reads⟩ := bind_eq_ok_iff.mp reads
          exact ih (keeps f (List.mem_of_find?_eq_some found) s set read a starts) reads
      next =>
        dsimp only at reads
        split at reads
        · cases reads
        · obtain ⟨_, -, reads⟩ := bind_eq_ok_iff.mp reads
          exact ih starts reads

theorem of_readItems {defaults : Bool} {ending : Ending} {fields : List (RecordField σ)}
    {items more : List Source} {b : σ}
    (keeps : ∀ f ∈ fields, ∀ s set, f.read depth s = .ok set → ∀ a, kept a → kept (set a))
    (starts : kept a) (reads : readItems depth defaults ending fields items a = .ok (more, b)) :
    kept b := by
  induction fields generalizing items a with
  | nil =>
    cases reads
    exact starts
  | cons f fields ih =>
    obtain ⟨first, others⟩ := List.forall_mem_cons.mp keeps
    cases items with
    | nil =>
      obtain ⟨_, -, reads⟩ := bind_eq_ok_iff.mp reads
      split at reads
      · cases reads
        exact starts
      · cases reads
    | cons s items =>
      obtain ⟨set, read, reads⟩ := bind_eq_ok_iff.mp reads
      exact ih others (first s set read a starts) reads

theorem of_read (kept : σ → Prop) (starts : kept r.start)
    (keeps : ∀ f ∈ r.fields, ∀ s set, f.read (depth - 1) s = .ok set → ∀ a, kept a → kept (set a))
    (reads : r.read depth s = .ok a) : kept a := by
  unfold read readAs at reads
  dsimp only at reads
  split at reads
  next members ending =>
    split at reads
    · cases reads
    · obtain ⟨⟨all, b⟩, members, reads⟩ := bind_eq_ok_iff.mp reads
      obtain ⟨_, -, reads⟩ := bind_eq_ok_iff.mp reads
      split at reads
      · cases reads
      · cases reads
        exact of_readMembers keeps starts members
  next items ending =>
    split at reads
    · cases reads
    · obtain ⟨⟨more, b⟩, items, reads⟩ := bind_eq_ok_iff.mp reads
      dsimp only at reads
      split at reads
      · obtain ⟨_, -, same⟩ := bind_eq_ok_iff.mp reads
        cases same
        exact of_readItems keeps starts items
      · cases reads
  next => cases reads

end Kept

section Whole
variable {β : Type} {make : σ → Option β} {b : β}

theorem readAs_object {members : List (Option String × Source)} (room : depth ≠ 0)
    (reads : r.readMembers (depth - 1) members [] r.start = .ok (seen, a))
    (all : ∀ f ∈ r.fields, f.required = true → f.name ∈ seen) (makes : make a = some b) :
    r.readAs make depth (.object members .closed) = .ok b := by
  have complete : ¬(r.fields.any fun f => f.required && !seen.contains f.name) = true := by
    simpa using all
  simp only [readAs, if_neg room, reads]
  change (if (r.fields.any fun f => f.required && !seen.contains f.name) = true then _
    else _) = _
  rw [if_neg complete, makes]
  rfl

section Fields
variable {fields : List (RecordField σ)} {vs : List Source} {b : σ}

theorem find?_name (distinct : (fields.map (·.name)).Nodup) :
    ∀ f ∈ fields, fields.find? (fun other => other.name == f.name) = some f := by
  induction fields with
  | nil => exact List.forall_mem_nil _
  | cons first others ih =>
    obtain ⟨once, distinct⟩ := List.nodup_cons.mp distinct
    refine List.forall_mem_cons.mpr
      ⟨List.find?_cons_of_pos (beq_self_eq_true _), fun f member => ?_⟩
    have apart : ¬(first.name == f.name) = true := fun same =>
      once (List.mem_map.mpr ⟨f, member, (beq_iff_eq.mp same).symm⟩)
    rw [← ih distinct f member]
    exact List.find?_cons_of_neg apart

/-- Members in the order of the fields are read as the items of an array are. -/
theorem readMembers_of_readItems {defaults : Bool} (known : ∀ f ∈ fields, r.field? f.name = some f)
    (distinct : (fields.map (·.name)).Nodup) (fresh : ∀ f ∈ fields, f.name ∉ seen)
    (length : vs.length = fields.length)
    (reads : readItems depth defaults .closed fields vs a = .ok ([], b)) :
    r.readMembers depth (List.zipWith (fun f v => (some f.name, v)) fields vs) seen a =
      .ok ((fields.map (·.name)).reverse ++ seen, b) := by
  induction fields generalizing vs seen a with
  | nil =>
    obtain rfl := List.length_eq_zero_iff.mp length
    cases reads
    rfl
  | cons f fields ih =>
    obtain ⟨v, vs, rfl⟩ := List.exists_cons_of_length_eq_add_one length
    obtain ⟨set, read, reads⟩ := bind_eq_ok_iff.mp reads
    obtain ⟨once, distinct⟩ := List.nodup_cons.mp distinct
    obtain ⟨found, known⟩ := List.forall_mem_cons.mp known
    obtain ⟨new, fresh⟩ := List.forall_mem_cons.mp fresh
    have apart : ∀ other ∈ fields, other.name ∉ f.name :: seen := by
      intro other member
      rw [List.mem_cons, not_or]
      exact ⟨fun same => once (List.mem_map.mpr ⟨other, member, same⟩), fresh other member⟩
    rw [List.zipWith_cons_cons, readMembers_field found new read,
      ih known distinct apart (Nat.succ.inj length) reads]
    simp

theorem read_object_of_readItems (distinct : (r.fields.map (·.name)).Nodup)
    (length : vs.length = r.fields.length)
    (reads : readItems depth r.defaults .closed r.fields vs r.start = .ok ([], b)) :
    r.read (depth + 1) (.object (List.zipWith (fun f v => (some f.name, v)) r.fields vs) .closed) =
      .ok b := by
  refine readAs_object (Nat.succ_ne_zero depth) (readMembers_of_readItems (find?_name distinct)
    distinct (fun _ _ => List.not_mem_nil) length reads) (fun f member _ => ?_) rfl
  rw [List.append_nil, List.mem_reverse]
  exact List.mem_map_of_mem member

end Fields

theorem readAs_array {items : List Source} (room : depth ≠ 0)
    (reads : readItems (depth - 1) r.defaults .closed r.fields items r.start = .ok ([], a))
    (makes : make a = some b) : r.readAs make depth (.array items .closed) = .ok b := by
  simp only [readAs, if_neg room, reads, makes, bind, Except.bind]
  rfl

end Whole

end Record
end DelayedJobs.Json
