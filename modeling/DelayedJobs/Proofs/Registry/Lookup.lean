import DelayedJobs.Registry

/-!
What a registry finds. A registration is found under its own kind from then on, and all other kinds
are found as before.
-/

namespace DelayedJobs

namespace Registration
variable {ρ : Type}

variable {kind name : String} {r : Registration ρ} {entries : List (String × Registration ρ)}

theorem findIn?_cons : findIn? name ((kind, r) :: entries) =
    if name = kind then find? name r else findIn? name entries := by
  rw [findIn?]
  simp only [eq_comm]

theorem findIn?_insert : findIn? name (Registry.insert kind r entries) =
    if name = kind then find? name r else findIn? name entries := by
  induction entries with
  | nil => exact findIn?_cons
  | cons entry rest ih =>
    obtain ⟨k, old⟩ := entry
    rw [Registry.insert]
    split
    next => exact findIn?_cons
    next =>
      split
      next same =>
        subst same
        rw [findIn?_cons, findIn?_cons]
        split <;> rfl
      next other =>
        rw [findIn?_cons, findIn?_cons, ih]
        split
        next first => rw [if_neg fun second => other (second.symm.trans first)]
        next => rfl

end Registration

namespace Registry
variable {ρ : Type} {r : Registry ρ} {kind name : String} {h : Handler ρ}

theorem find?_register (r : Registry ρ) (kind name : String) (h : Handler ρ) :
    (r.register kind h).find? name = if name = kind then some h else r.find? name := by
  rw [find?, register, Registration.findIn?_insert, Registration.find?]
  rfl

theorem find?_foldl_register (kinds : List String) (r : Registry ρ) (h : Handler ρ)
    (name : String) : (kinds.foldl (fun r k => r.register k h) r).find? name =
      if name ∈ kinds then some h else r.find? name := by
  induction kinds generalizing r with
  | nil => simp
  | cons k rest ih =>
    rw [List.foldl_cons, ih, find?_register]
    grind

theorem handle_of_find?_raw {p : Payload} {run : Payload → ρ}
    (found : r.find? p.kind = some (.raw run)) : r.handle p = .ok (run p) := by
  rw [handle, found]

theorem handle_of_find?_none {p : Payload} (found : r.find? p.kind = none) :
    r.handle p = .error (.noHandler p.kind) := by
  rw [handle, found]

end Registry
end DelayedJobs
