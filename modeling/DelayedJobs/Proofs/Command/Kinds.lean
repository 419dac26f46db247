import DelayedJobs.Command.Execute
import DelayedJobs.Proofs.Registry.Lookup
import DelayedJobs.Proofs.Text.Trim

/-!
Which orders the hosts take. A host that is told the kinds it may take trims them, while an order
keeps its kind as it was given. So a host takes an order of the same kind just when that kind is
bare, and no host with kinds of its own takes an order whose kind is not.
-/

namespace DelayedJobs

namespace Host
variable {kinds : List String} {kind : String} {r : Registry Unit} {p : Payload}

def trimmed (kind : String) : String := String.ofList (Text.trim kind.toList)

def named (kinds : List String) : List String := (kinds.map trimmed).filter fun k => k != ""

theorem trimmed_eq_empty_iff : trimmed kind = "" ↔ Text.allBlank kind.toList := by
  rw [trimmed, String.ofList_eq_empty_iff, Text.trim_eq_nil_iff]

theorem trimmed_eq_self_iff : trimmed kind = kind ↔ Text.Bare kind.toList := by
  rw [← Text.trim_eq_self_iff, trimmed]
  constructor
  · intro same
    conv_rhs => rw [← same, String.toList_ofList]
  · intro same
    rw [same, String.ofList_toList]

theorem bare_trimmed (kind : String) : Text.Bare (trimmed kind).toList := by
  rw [trimmed, String.toList_ofList]
  exact Text.bare_trim _

theorem registryOf_eq (kinds : List String) : registryOf kinds =
    if (named kinds).isEmpty then none
    else some ((named kinds).foldl (fun r k => r.register k (.raw fun _ => ())) .empty) := rfl

theorem exists_registryOf (member : kind ∈ kinds) (visible : ¬ Text.allBlank kind.toList) :
    ∃ r, registryOf kinds = some r := by
  have here : trimmed kind ∈ named kinds :=
    List.mem_filter.mpr ⟨List.mem_map_of_mem member, by simpa [trimmed_eq_empty_iff] using visible⟩
  rw [registryOf_eq, if_neg (by simpa using List.ne_nil_of_mem here)]
  exact ⟨_, rfl⟩

theorem handle_of_registryOf (made : registryOf kinds = some r) :
    r.handle p = if p.kind ∈ named kinds then .ok () else .error (.noHandler p.kind) := by
  rw [registryOf_eq] at made
  split at made
  · cases made
  cases made
  have found := Registry.find?_foldl_register (named kinds) .empty (.raw fun _ => ()) p.kind
  split
  next known => exact Registry.handle_of_find?_raw (found.trans (if_pos known))
  next unknown => exact Registry.handle_of_find?_none (found.trans (if_neg unknown))

end Host

namespace Command
open Host
variable {o : Order} {p : Payload}

theorem kind_of_payload (accepted : payload o = .ok p) :
    p.kind = o.kind ∧ ¬ Text.allBlank o.kind.toList := by
  rw [payload] at accepted
  split at accepted
  next => cases accepted
  next visible =>
    split at accepted
    next =>
      cases accepted
      exact ⟨rfl, visible⟩
    next => cases accepted

theorem mem_named_iff (accepted : payload o = .ok p) {kinds : List String} :
    p.kind ∈ named kinds ↔ p.kind ∈ kinds.map trimmed := by
  obtain ⟨kind, visible⟩ := kind_of_payload accepted
  have some_ : p.kind ≠ "" := by
    rintro empty
    rw [← kind, empty] at visible
    exact visible rfl
  rw [named, List.mem_filter, bne_iff_ne, and_iff_left some_]

/-- The registry for the kind of an order exists, and takes its payload just when the kind is bare.
Of any registry the payload is taken just by those that name its kind, up to white space of theirs;
none does if the kind of the order is not bare. -/
theorem registry_takes_bare_orders (accepted : payload o = .ok p) :
    (∃ r, registryOf [o.kind] = some r ∧
      r.handle p = if Text.Bare o.kind.toList then .ok () else .error (.noHandler o.kind)) ∧
    ∀ kinds r, registryOf kinds = some r →
      (r.handle p = if p.kind ∈ kinds.map trimmed then .ok () else .error (.noHandler p.kind)) ∧
      (¬ Text.Bare o.kind.toList → r.handle p = .error (.noHandler p.kind)) := by
  obtain ⟨kind, visible⟩ := kind_of_payload accepted
  constructor
  · obtain ⟨r, made⟩ := exists_registryOf (.head _) visible
    have bare : p.kind ∈ named [o.kind] ↔ Text.Bare o.kind.toList := by
      rw [mem_named_iff accepted, kind, List.map_singleton, List.mem_singleton, eq_comm,
        trimmed_eq_self_iff]
    refine ⟨r, made, ?_⟩
    rw [handle_of_registryOf made]
    simp only [bare]
    rw [kind]
  · intro kinds r made
    have taken := handle_of_registryOf (p := p) made
    simp only [mem_named_iff accepted] at taken
    refine ⟨taken, fun ragged => ?_⟩
    rw [taken, if_neg]
    intro member
    obtain ⟨k, -, same⟩ := List.mem_map.mp member
    rw [← kind, ← same] at ragged
    exact ragged (bare_trimmed k)

theorem spacedOrder_refused :
    let o : Order := { kind := " k ", data := "null" }
    let p : Payload := ⟨" k ", .null⟩
    payload o = .ok p ∧
      ∃ r, registryOf [" k "] = some r ∧ r.handle p = .error (.noHandler " k ") := by
  intro o p
  have accepted : payload o = .ok p := by cbv
  obtain ⟨r, made, handled⟩ := (registry_takes_bare_orders accepted).1
  rw [if_neg (by decide)] at handled
  exact ⟨accepted, r, made, handled⟩

end Command
end DelayedJobs
