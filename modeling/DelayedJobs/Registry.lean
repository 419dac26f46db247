import DelayedJobs.Job.Basic

/-!
Handlers by kind. A registry may itself serve as the handler of a kind; it is stored as it stands,
so later registrations do not reach it. Looking a kind up goes through nested registries until a
handler is found that is none.
-/

namespace DelayedJobs

/-- A handler with results in `ρ`: one that takes any payload, or one that takes the data of a
type of jobs. -/
inductive Handler (ρ : Type) where
  | raw (run : Payload → ρ)
  | typed (kind : String) (run : Json → Except Json.Fault ρ)

namespace Handler

def ofJobs {ρ : Type} (α : Type) [JobKind α] (run : α → ρ) : Handler ρ :=
  typed (JobKind.kind α) fun data => (JobKind.decode data).map run

end Handler

inductive Registration (ρ : Type) where
  | handler (h : Handler ρ)
  | registry (entries : List (String × Registration ρ))

structure Registry (ρ : Type) where
  entries : List (String × Registration ρ) := []

inductive DispatchError where
  | noHandler (kind : String)
  | invalidPayload (kind : String) (cause : Json.Fault)
deriving DecidableEq

namespace DispatchError

def message : DispatchError → String
  | noHandler kind => "No handler registered for job kind '" ++ kind ++ "'"
  | invalidPayload kind _ => "Invalid payload for job kind '" ++ kind ++ "'"

def causes : DispatchError → Nat
  | noHandler _ => 0
  | invalidPayload _ _ => 1

end DispatchError

namespace Registration

mutual

def find? {ρ : Type} (kind : String) : Registration ρ → Option (Handler ρ)
  | handler h => some h
  | registry entries => findIn? kind entries

def findIn? {ρ : Type} (kind : String) : List (String × Registration ρ) → Option (Handler ρ)
  | [] => none
  | (k, r) :: rest => if k = kind then find? kind r else findIn? kind rest

end

end Registration

namespace Registry

variable {ρ : Type}

def empty : Registry ρ := {}

def insert (kind : String) (r : Registration ρ) :
    List (String × Registration ρ) → List (String × Registration ρ)
  | [] => [(kind, r)]
  | (k, old) :: rest =>
    if kind < k then (kind, r) :: (k, old) :: rest
    else if kind = k then (kind, r) :: rest
    else (k, old) :: insert kind r rest

def register (r : Registry ρ) (kind : String) (h : Handler ρ) : Registry ρ :=
  ⟨insert kind (.handler h) r.entries⟩

def registerJobs (r : Registry ρ) (α : Type) [JobKind α] (run : α → ρ) : Registry ρ :=
  r.register (JobKind.kind α) (.ofJobs α run)

/-- Registers another registry, as it stands, as the handler of a kind. -/
def nest (r : Registry ρ) (kind : String) (inner : Registry ρ) : Registry ρ :=
  ⟨insert kind (.registry inner.entries) r.entries⟩

def kinds (r : Registry ρ) : List String := r.entries.map Prod.fst

def contains (r : Registry ρ) (kind : String) : Bool := r.kinds.contains kind

def size (r : Registry ρ) : Nat := r.entries.length

def find? (r : Registry ρ) (kind : String) : Option (Handler ρ) :=
  Registration.findIn? kind r.entries

def handle (r : Registry ρ) (p : Payload) : Except DispatchError ρ :=
  match r.find? p.kind with
  | none => .error (.noHandler p.kind)
  | some (.raw run) => .ok (run p)
  | some (.typed kind run) =>
    match run p.data with
    | .ok a => .ok a
    | .error fault => .error (.invalidPayload kind fault)

end Registry
end DelayedJobs
