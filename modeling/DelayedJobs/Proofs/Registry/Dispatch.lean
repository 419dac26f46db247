import DelayedJobs.Proofs.Registry.Lookup
import Mathlib.Data.Finset.Card
import Mathlib.Data.String.Basic
import Mathlib.Logic.Function.Basic

/-!
Where a payload ends. Registries go by names; they are cloned, get handlers, and get clones of
registries, their own too, as handlers to any depth. The handler of a payload is read off the past:
the latest registration of its kind counts, and behind a registry the search goes on in what had
been done when it was registered. Each step back leaves less of the past, so the search ends. A
clone is a value that nothing done to the registry it was taken from can reach.
-/

namespace DelayedJobs

namespace Registry

/-- A handler that is no registry, and its kind. Its result may be an action, which is run where the
result is. -/
inductive Leaf (ρ : Type) : Type 1 where
  | raw (kind : String) (run : Payload → ρ)
  | jobs (α : Type) [JobKind α] (run : α → ρ)

/-- What is done to registries. A name that nothing was done to stands for an empty one. -/
inductive Step (ρ : Type) : Type 1 where
  | clone (name of_ : String)
  | register (name : String) (leaf : Leaf ρ)
  | nest (name kind inner : String)

variable {ρ : Type}

namespace Leaf

def kind : Leaf ρ → String
  | raw kind _ => kind
  | jobs α _ => JobKind.kind α

def handler : Leaf ρ → Handler ρ
  | raw _ run => .raw run
  | jobs α run => .ofJobs α run

def addTo (r : Registry ρ) : Leaf ρ → Registry ρ
  | raw kind run => r.register kind (.raw run)
  | jobs α run => r.registerJobs α run

/-- What comes of a payload: a handler of jobs is not called if the data is none of its jobs. -/
def answer (p : Payload) : Leaf ρ → Except DispatchError ρ
  | raw _ run => .ok (run p)
  | jobs α run =>
    match p.toJob α with
    | .ok job => .ok (run job)
    | .error fault => .error (.invalidPayload (JobKind.kind α) fault)

theorem addTo_eq (leaf : Leaf ρ) (r : Registry ρ) :
    leaf.addTo r = r.register leaf.kind leaf.handler := by
  cases leaf <;> rfl

end Leaf

namespace Step

def name : Step ρ → String
  | clone name _ | register name _ | nest name _ _ => name

def kind? : Step ρ → Option String
  | clone _ _ => none
  | register _ leaf => some leaf.kind
  | nest _ kind _ => some kind

def apply (shelf : String → Registry ρ) : Step ρ → String → Registry ρ
  | clone name of_ => Function.update shelf name (shelf of_)
  | register name leaf => Function.update shelf name (leaf.addTo (shelf name))
  | nest name kind inner => Function.update shelf name ((shelf name).nest kind (shelf inner))

def Spares (name kind : String) (step : Step ρ) : Prop :=
  step.name = name → ∃ other, step.kind? = some other ∧ other ≠ kind

end Step

def shelf (past : List (Step ρ)) : String → Registry ρ :=
  past.foldr (fun step before => step.apply before) fun _ => .empty

def leaf? : (past : List (Step ρ)) → (name kind : String) → Option (Leaf ρ)
  | [], _, _ => none
  | .clone new of_ :: past, name, kind => leaf? past (if new = name then of_ else name) kind
  | .register on leaf :: past, name, kind =>
    if on = name ∧ leaf.kind = kind then some leaf else leaf? past name kind
  | .nest on k inner :: past, name, kind =>
    leaf? past (if on = name ∧ k = kind then inner else name) kind

/-- The kinds that were registered in a registry, or in the one it was cloned from before that. -/
def registered : (past : List (Step ρ)) → (name : String) → Finset String
  | [], _ => ∅
  | .clone new of_ :: past, name => registered past (if new = name then of_ else name)
  | .register on leaf :: past, name =>
    if on = name then registered past name ∪ {leaf.kind} else registered past name
  | .nest on kind _ :: past, name =>
    if on = name then registered past name ∪ {kind} else registered past name

section Steps
variable {past : List (Step ρ)} {step : Step ρ} {name kind : String}

theorem shelf_of_ne (apart : step.name ≠ name) : shelf (step :: past) name = shelf past name := by
  cases step <;> exact Function.update_of_ne (Ne.symm apart) ..

theorem leaf?_of_ne (apart : step.name ≠ name) :
    leaf? (step :: past) name kind = leaf? past name kind := by
  cases step with
  | clone new of_ => exact congrArg (leaf? past · kind) (if_neg apart)
  | register on leaf => exact if_neg (not_and_of_not_left _ apart)
  | nest on k inner => exact congrArg (leaf? past · kind) (if_neg (not_and_of_not_left _ apart))

theorem registered_of_ne (apart : step.name ≠ name) :
    registered (step :: past) name = registered past name := by
  cases step with
  | clone new of_ => exact congrArg (registered past) (if_neg apart)
  | register on leaf => exact if_neg apart
  | nest on k inner => exact if_neg apart

theorem shelf_clone (new of_ : String) : shelf (.clone new of_ :: past) new = shelf past of_ :=
  Function.update_self ..

theorem shelf_register (leaf : Leaf ρ) :
    shelf (.register name leaf :: past) name =
      (shelf past name).register leaf.kind leaf.handler :=
  (Function.update_self ..).trans (leaf.addTo_eq _)

theorem shelf_nest (inner : String) :
    shelf (.nest name kind inner :: past) name = (shelf past name).nest kind (shelf past inner) :=
  Function.update_self ..

theorem leaf?_of_spares (spares : step.Spares name kind) :
    leaf? (step :: past) name kind = leaf? past name kind := by
  by_cases here : step.name = name
  · obtain ⟨other, registers, apart⟩ := spares here
    cases step with
    | clone => cases registers
    | register on leaf =>
      cases registers
      exact if_neg (not_and_of_not_right _ apart)
    | nest on k inner =>
      cases registers
      exact congrArg (leaf? past · kind) (if_neg (not_and_of_not_right _ apart))
  · exact leaf?_of_ne here

theorem leaf?_append {later : List (Step ρ)} (spare : ∀ step ∈ later, step.Spares name kind) :
    leaf? (later ++ past) name kind = leaf? past name kind := by
  induction later with
  | nil => rfl
  | cons step later ih =>
    rw [List.forall_mem_cons] at spare
    exact (leaf?_of_spares spare.1).trans (ih spare.2)

theorem shelf_append {later : List (Step ρ)} (apart : ∀ step ∈ later, step.name ≠ name) :
    shelf (later ++ past) name = shelf past name := by
  induction later with
  | nil => rfl
  | cons step later ih =>
    rw [List.forall_mem_cons] at apart
    exact (shelf_of_ne apart.1).trans (ih apart.2)

end Steps

section Finding
variable {r : Registry ρ} {leaf : Leaf ρ} {p : Payload}

theorem find?_nest (r : Registry ρ) (kind : String) (inner : Registry ρ) (name : String) :
    (r.nest kind inner).find? name = if name = kind then inner.find? name else r.find? name := by
  rw [find?, nest, Registration.findIn?_insert, Registration.find?]
  rfl

theorem find?_shelf (past : List (Step ρ)) (name kind : String) :
    (shelf past name).find? kind = (leaf? past name kind).map Leaf.handler := by
  induction past generalizing name with
  | nil => rfl
  | cons step past ih =>
    by_cases here : step.name = name
    · subst here
      cases step with
      | clone new of_ =>
        rw [Step.name, shelf_clone, leaf?, if_pos rfl, ih]
      | register on leaf =>
        rw [Step.name, shelf_register, leaf?, find?_register, ih]
        by_cases same : leaf.kind = kind
        · simp [same]
        · simp [same, Ne.symm same]
      | nest on k inner =>
        rw [Step.name, shelf_nest, leaf?, find?_nest, ih, ih]
        by_cases same : k = kind
        · simp [same]
        · simp [same, Ne.symm same]
    · rw [shelf_of_ne here, leaf?_of_ne here, ih]

theorem handle_of_leaf (found : r.find? p.kind = some leaf.handler) :
    r.handle p = leaf.answer p := by
  rw [handle, found]
  cases leaf with
  | raw => rfl
  | jobs α run =>
    simp only [Leaf.handler, Handler.ofJobs, Leaf.answer, Payload.toJob]
    cases JobKind.decode (α := α) p.data <;> rfl

theorem handle_shelf (past : List (Step ρ)) (name : String) (p : Payload) :
    (shelf past name).handle p =
      (leaf? past name p.kind).elim (.error (.noHandler p.kind)) (·.answer p) := by
  have found := find?_shelf past name p.kind
  cases reached : leaf? past name p.kind with
  | none =>
    rw [reached] at found
    exact handle_of_find?_none found
  | some leaf =>
    rw [reached] at found
    exact handle_of_leaf found

theorem answer_fails_iff : (∃ e, leaf.answer p = .error e) ↔
    ∃ (α : Type) (_ : JobKind α) (run : α → ρ) (fault : Json.Fault),
      leaf = .jobs α run ∧ p.toJob α = .error fault := by
  constructor
  · rintro ⟨e, failed⟩
    cases leaf with
    | raw => cases failed
    | jobs α run =>
      rw [Leaf.answer] at failed
      split at failed
      next => cases failed
      next fault refused => exact ⟨α, _, run, fault, rfl, refused⟩
  · rintro ⟨α, _, run, fault, rfl, refused⟩
    rw [Leaf.answer, refused]
    exact ⟨_, rfl⟩

end Finding

/-! The kinds of a registry stand in order, each once. -/

section Kinds
variable {kind k : String} {entry : Registration ρ} {entries : List (String × Registration ρ)}

def Sorted (entries : List (String × Registration ρ)) : Prop :=
  (entries.map Prod.fst).Pairwise (· < ·)

theorem mem_insert : k ∈ (insert kind entry entries).map Prod.fst ↔
    k = kind ∨ k ∈ entries.map Prod.fst := by
  induction entries with
  | nil => simp [insert]
  | cons first rest ih =>
    obtain ⟨other, old⟩ := first
    rw [insert]
    split_ifs with before same
    · simp
    · simp [same]
    · simp only [List.map_cons, List.mem_cons, ih]
      exact or_left_comm

theorem Sorted.insert (h : Sorted entries) : Sorted (insert kind entry entries) := by
  induction entries with
  | nil => simp [Sorted, Registry.insert]
  | cons first rest ih =>
    obtain ⟨other, old⟩ := first
    obtain ⟨least, sorted⟩ := List.pairwise_cons.mp h
    rw [Registry.insert]
    split_ifs with before same
    · refine List.pairwise_cons.mpr ⟨fun k member => ?_, h⟩
      obtain rfl | later := List.mem_cons.mp member
      · exact before
      · exact before.trans (least k later)
    · subst same
      exact h
    · refine List.pairwise_cons.mpr ⟨fun k member => ?_, ih sorted⟩
      obtain rfl | later := mem_insert.mp member
      · exact lt_of_le_of_ne (not_lt.mp before) (Ne.symm same)
      · exact least k later

theorem sorted_shelf (past : List (Step ρ)) (name : String) : Sorted (shelf past name).entries := by
  induction past generalizing name with
  | nil => exact .nil
  | cons step past ih =>
    by_cases here : step.name = name
    · subst here
      cases step with
      | clone new of_ => exact (congrArg (Sorted ·.entries) (shelf_clone new of_)).mpr (ih of_)
      | register on leaf =>
        rw [Step.name, shelf_register]
        exact (ih on).insert
      | nest on k inner =>
        rw [Step.name, shelf_nest]
        exact (ih on).insert
    · rw [shelf_of_ne here]
      exact ih name

theorem mem_kinds_shelf (past : List (Step ρ)) (name : String) :
    k ∈ (shelf past name).kinds ↔ k ∈ registered past name := by
  induction past generalizing name with
  | nil => exact iff_of_false List.not_mem_nil (Finset.notMem_empty k)
  | cons step past ih =>
    by_cases here : step.name = name
    · subst here
      cases step with
      | clone new of_ =>
        rw [Step.name, shelf_clone, registered, if_pos rfl, ih]
      | register on leaf =>
        rw [Step.name, shelf_register, registered, if_pos rfl, Finset.mem_union,
          Finset.mem_singleton, ← ih, or_comm]
        exact mem_insert
      | nest on kind inner =>
        rw [Step.name, shelf_nest, registered, if_pos rfl, Finset.mem_union,
          Finset.mem_singleton, ← ih, or_comm]
        exact mem_insert
    · rw [shelf_of_ne here, registered_of_ne here, ih]

end Kinds

/-- A payload ends at the leaf that the past has for it, and nothing else is called; it fails
without a call exactly when there is no such leaf, or when the leaf takes jobs and the data is none
of them. What is done to other registries changes no clone; a clone that serves as a handler does
what it did when it was registered, until its kind is registered anew. The kinds are those that were
registered, each once. -/
theorem payloads_end_at_leaf (past : List (Step ρ)) (name : String) :
    let r := shelf past name
    (∀ p, r.handle p = (leaf? past name p.kind).elim (.error (.noHandler p.kind)) (·.answer p)) ∧
    (∀ p, (∃ e, r.handle p = .error e) ↔ leaf? past name p.kind = none ∨
      ∃ (α : Type) (_ : JobKind α) (run : α → ρ) (fault : Json.Fault),
        leaf? past name p.kind = some (.jobs α run) ∧ p.toJob α = .error fault) ∧
    (∀ later : List (Step ρ), (∀ step ∈ later, step.name ≠ name) → shelf (later ++ past) name = r) ∧
    (∀ (later : List (Step ρ)) on p, (∀ step ∈ later, step.Spares on p.kind) →
      (shelf (later ++ .nest on p.kind name :: past) on).handle p = r.handle p) ∧
    r.kinds.Nodup ∧ (∀ kind, kind ∈ r.kinds ↔ kind ∈ registered past name) ∧
    (∀ kind, r.contains kind = true ↔ kind ∈ registered past name) ∧
    r.size = (registered past name).card := by
  intro r
  have handles := handle_shelf past name
  have once : r.kinds.Nodup := (sorted_shelf past name).imp fun before => ne_of_lt before
  have members (kind : String) : kind ∈ r.kinds ↔ kind ∈ registered past name :=
    mem_kinds_shelf past name
  refine ⟨handles, fun p => ?_, fun later => shelf_append,
    fun later on p spare => ?_, once, members, fun kind => ?_, ?_⟩
  · rw [handles]
    cases leaf? past name p.kind with
    | none => simp
    | some leaf => simpa using answer_fails_iff
  · rw [handles, handle_shelf, leaf?_append spare, leaf?, if_pos ⟨rfl, rfl⟩]
  · rw [contains, List.contains_iff_mem, members]
  · have same : r.kinds.toFinset = registered past name :=
      Finset.ext fun kind => List.mem_toFinset.trans (members kind)
    rw [← same, List.toFinset_card_of_nodup once, kinds, List.length_map, size]

structure Delay where
  minutes : Nat

instance : JobKind Delay where
  kind := "reminder"
  encode d := .ok (.ofNat d.minutes)
  decode
    | .number (.int n) => if 0 ≤ n then .ok ⟨n.toNat⟩ else .error .mismatched
    | _ => .error .mismatched

def restored : List (Step Nat) :=
  [.nest "live" "reminder" "old", .register "live" (.raw "reminder" fun _ => 0),
    .clone "old" "live", .register "live" (.jobs Delay Delay.minutes)]

theorem restored_reminds :
    let p : Payload := ⟨"reminder", .ofNat 5⟩
    let more : List (Step Nat) := [.register "live" (.raw "ping" fun _ => 1)]
    (shelf (more ++ restored) "live").handle p = .ok 5 ∧
      (shelf (more ++ restored) "live").size = 2 ∧
      shelf (more ++ restored) "old" = shelf restored.tail.tail "old" ∧
      (shelf (more ++ restored) "live").handle p = (shelf restored.tail "old").handle p := by
  intro p more
  obtain ⟨handles, -, -, -, -, -, -, size⟩ := payloads_end_at_leaf (more ++ restored) "live"
  obtain ⟨-, -, untouched, -⟩ := payloads_end_at_leaf restored.tail.tail "old"
  obtain ⟨-, -, -, nested, -⟩ := payloads_end_at_leaf restored.tail "old"
  refine ⟨(handles p).trans (by decide), size.trans (by decide),
    untouched (more ++ restored.take 2) ?_, nested more "live" p ?_⟩
  · decide
  · simp [more, Step.Spares, Step.name, Step.kind?, Leaf.kind, p]

end Registry
end DelayedJobs
