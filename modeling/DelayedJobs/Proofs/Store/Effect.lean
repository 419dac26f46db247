import DelayedJobs.Proofs.Store.Coherence

/-!
What a request does to a job. An effect is seen from outside: a renewal says so, a claim brings a
job, and a job that is completed, retried or given up shows another status than before. Each effect
changes one job in one way, and a request without an effect changes nothing.
-/

namespace DelayedJobs

namespace Store

inductive Effect where
  | scheduled (due : Instant)
  | claimed (worker : WorkerId) (until_ : Instant)
  | renewed (until_ : Instant)
  | completed
  | retried (due : Instant)
  | forgotten
deriving DecidableEq

structure Entry where
  job : Uuid
  effect : Effect
deriving DecidableEq

namespace Request

def drawn? : Request → Option Uuid
  | schedule id _ _ => some id
  | _ => none

def caller? : Request → Option (WorkerId × Uuid)
  | keep worker job _ | complete worker job _ | retry worker job _ | forget worker job _ =>
    some (worker, job.id)
  | _ => none

end Request
end Store

namespace MemoryStore
open Store (Effect Entry Request)
variable {s : MemoryStore}

def status? (s : MemoryStore) (id : Uuid) : Option JobStatus := (s.get? id).map Job.status

def ifStatusChanges (s : MemoryStore) (r : Request) (e : Entry) : Option Entry :=
  if (s.apply r).2.status? e.job = s.status? e.job then none else some e

def effect? (s : MemoryStore) : Request → Option Entry
  | .schedule id _ due => some ⟨id, .scheduled due⟩
  | .claim worker now until_ =>
    (s.claim worker now until_).1.map fun job => ⟨job.id, .claimed worker until_⟩
  | .keep worker job until_ =>
    if (s.keep worker job.id until_).1 then some ⟨job.id, .renewed until_⟩ else none
  | .complete worker job now => s.ifStatusChanges (.complete worker job now) ⟨job.id, .completed⟩
  | .retry worker job due => s.ifStatusChanges (.retry worker job due) ⟨job.id, .retried due⟩
  | .forget worker job now => s.ifStatusChanges (.forget worker job now) ⟨job.id, .forgotten⟩
  | .prune _ => none

/-- A request, its effect, and the state that the effect leads to. -/
inductive Does (s : MemoryStore) : Request → Entry → MemoryStore → Prop
  | schedule {id : Uuid} (payload : Payload) (due : Instant) (fresh : s.get? id = none) :
    Does s (.schedule id payload due) ⟨id, .scheduled due⟩ (s.schedule id payload due)
  | claim {job : Job} (member : job ∈ s.jobs) (worker : WorkerId) {now : Instant}
      (due : job.invisibleUntil ≤ now) (until_ : Instant) :
    Does s (.claim worker now until_) ⟨job.id, .claimed worker until_⟩
      (s.replace job (job.leased worker until_))
  | keep {held job : Job} (member : held ∈ s.jobs) {worker : WorkerId}
      (owner : held.claimedBy = some worker) (same : held.id = job.id) (until_ : Instant) :
    Does s (.keep worker job until_) ⟨held.id, .renewed until_⟩
      (s.replace held (held.renewed until_))
  | complete {held job : Job} (member : held ∈ s.jobs) {worker : WorkerId}
      (owner : held.claimedBy = some worker) (same : held.id = job.id) (now : Instant) :
    Does s (.complete worker job now) ⟨held.id, .completed⟩ (s.discard held)
  | retry {held job : Job} (member : held ∈ s.jobs) {worker : WorkerId}
      (owner : held.claimedBy = some worker) (same : held.id = job.id) (due : Instant) :
    Does s (.retry worker job due) ⟨held.id, .retried due⟩ (s.replace held (held.released due))
  | forget {held job : Job} (member : held ∈ s.jobs) {worker : WorkerId}
      (owner : held.claimedBy = some worker) (same : held.id = job.id) (now : Instant) :
    Does s (.forget worker job now) ⟨held.id, .forgotten⟩ (s.discard held)

/-- A request without an effect, which changes nothing; a caller that has none is not the owner. -/
structure Idle (s : MemoryStore) (r : Request) : Prop where
  effect : s.effect? r = none
  state : (s.apply r).2 = s
  owner : ∀ worker id, r.caller? = some (worker, id) → s.owner? id ≠ some worker

def Fresh (s : MemoryStore) (r : Request) : Prop := ∀ id ∈ r.drawn?, s.get? id = none

instance (r : Request) : Decidable (s.Fresh r) :=
  inferInstanceAs (Decidable (∀ id ∈ r.drawn?, s.get? id = none))

/-- Every request of a list draws a fresh identifier, if any, when its turn comes. -/
def DrawsFresh (s : MemoryStore) : List Request → Prop
  | [] => True
  | r :: rest => s.Fresh r ∧ DrawsFresh (s.apply r).2 rest

instance decidableDrawsFresh (s : MemoryStore) : (requests : List Request) →
    Decidable (s.DrawsFresh requests)
  | [] => isTrue trivial
  | r :: rest =>
    have := decidableDrawsFresh (s.apply r).2 rest
    inferInstanceAs (Decidable (s.Fresh r ∧ DrawsFresh (s.apply r).2 rest))

theorem ifStatusChanges_self {r : Request} (e : Entry) (h : (s.apply r).2 = s) :
    s.ifStatusChanges r e = none := by
  rw [ifStatusChanges, h, if_pos rfl]

theorem Coherent.ifStatusChanges_eq_some (h : s.Coherent) {r : Request} {job : Job}
    (member : job ∈ s.jobs) {worker : WorkerId} (owner : job.claimedBy = some worker)
    (after : ∀ j, (s.apply r).2.get? job.id = some j → j.status = .ready) (effect : Effect) :
    s.ifStatusChanges r ⟨job.id, effect⟩ = some ⟨job.id, effect⟩ := by
  have claimed := (Job.isHeldBy_iff.mp ((h.pending job member).isHeldBy_iff.mpr owner)).1
  have before : s.status? job.id = some .claimed := by
    rw [status?, h.get?_eq_some_iff.mpr ⟨member, rfl⟩, Option.map_some, claimed]
  rw [ifStatusChanges, if_neg]
  rw [before, status?]
  cases found : (s.apply r).2.get? job.id with
  | none => simp
  | some j => simp [after j found]

theorem Coherent.removes (h : s.Coherent) {r : Request} {worker : WorkerId} {id : Uuid}
    {effect : Effect} (takes : (s.apply r).2 = s.remove worker id)
    (reports : s.effect? r = s.ifStatusChanges r ⟨id, effect⟩) :
    (s.effect? r = none ∧ (s.apply r).2 = s ∧ s.owner? id ≠ some worker) ∨
      ∃ held ∈ s.jobs, held.id = id ∧ held.claimedBy = some worker ∧
        s.effect? r = some ⟨held.id, effect⟩ ∧ (s.apply r).2 = s.discard held := by
  rw [reports]
  obtain ⟨eq, other⟩ | ⟨held, member, rfl, owner, eq⟩ := h.remove_cases worker id
  · exact .inl ⟨ifStatusChanges_self _ (takes.trans eq), takes.trans eq, other⟩
  · have state := takes.trans eq
    have gone : ∀ j, (s.apply r).2.get? held.id = some j → j.status = .ready := by
      simp [state, get?_discard]
    exact .inr ⟨held, member, rfl, owner, h.ifStatusChanges_eq_some member owner gone effect, state⟩

theorem Coherent.apply_cases (h : s.Coherent) {r : Request} (fresh : s.Fresh r) :
    s.Idle r ∨ ∃ e, s.effect? r = some e ∧ s.Does r e (s.apply r).2 := by
  cases r with
  | schedule id payload due => exact .inr ⟨_, rfl, .schedule payload due (fresh id rfl)⟩
  | claim worker now until_ =>
    obtain ⟨eq, -⟩ | ⟨job, member, due, -, eq⟩ := h.claim_cases worker now until_
    · exact .inl ⟨by rw [effect?, eq]; rfl, by rw [MemoryStore.apply, eq], by rintro _ _ ⟨⟩⟩
    · rw [effect?, MemoryStore.apply, eq]
      exact .inr ⟨_, rfl, .claim member worker due until_⟩
  | keep worker job until_ =>
    obtain ⟨eq, other⟩ | ⟨held, member, same, owner, eq⟩ := h.keep_cases worker job.id until_
    · refine .inl ⟨by rw [effect?, eq]; rfl, by rw [MemoryStore.apply, eq], ?_⟩
      rintro _ _ ⟨⟩
      exact other
    · rw [effect?, MemoryStore.apply, eq, ← same]
      exact .inr ⟨_, rfl, .keep member owner same until_⟩
  | complete worker job now =>
    obtain ⟨effect, state, other⟩ | ⟨held, member, same, owner, effect, state⟩ :=
      h.removes (r := .complete worker job now) rfl rfl
    · refine .inl ⟨effect, state, ?_⟩
      rintro _ _ ⟨⟩
      exact other
    · rw [state]
      exact .inr ⟨_, effect, .complete member owner same now⟩
  | forget worker job now =>
    obtain ⟨effect, state, other⟩ | ⟨held, member, same, owner, effect, state⟩ :=
      h.removes (r := .forget worker job now) rfl rfl
    · refine .inl ⟨effect, state, ?_⟩
      rintro _ _ ⟨⟩
      exact other
    · rw [state]
      exact .inr ⟨_, effect, .forget member owner same now⟩
  | retry worker job due =>
    obtain ⟨eq, other⟩ | ⟨held, member, same, owner, eq⟩ := h.retry_cases worker job.id due
    · refine .inl ⟨ifStatusChanges_self _ eq, eq, ?_⟩
      rintro _ _ ⟨⟩
      exact other
    · have after : (s.apply (.retry worker job due)).2 = s.replace held (held.released due) := eq
      have ready : ∀ j, (s.apply (.retry worker job due)).2.get? held.id = some j →
          j.status = .ready := by
        rw [after, h.get?_replace member (held.id_released due)]
        rintro j found
        rw [if_pos rfl] at found
        exact Option.some.inj found ▸ rfl
      rw [effect?, ← same, h.ifStatusChanges_eq_some member owner ready, after]
      exact .inr ⟨_, rfl, .retry member owner same due⟩
  | prune _ => exact .inl ⟨rfl, rfl, by rintro _ _ ⟨⟩⟩

theorem Coherent.does (h : s.Coherent) {r : Request} {e : Entry} {after : MemoryStore}
    (does : s.Does r e after) : after.Coherent := by
  cases does with
  | schedule payload due fresh => exact h.schedule payload due fresh
  | claim member worker _ until_ =>
    exact h.replace member (Job.id_leased _ worker until_) (Job.pending_leased _ worker until_)
  | keep member _ _ until_ =>
    exact h.replace member (Job.id_renewed _ until_) ((h.pending _ member).renewed until_)
  | complete member | forget member => exact h.discard member
  | retry member _ _ due =>
    exact h.replace member (Job.id_released _ due) (Job.pending_released _ due)

theorem Coherent.get?_of_ne (h : s.Coherent) {r : Request} {e : Entry} {after : MemoryStore}
    (does : s.Does r e after) {id : Uuid} (ne : id ≠ e.job) : after.get? id = s.get? id := by
  cases does with
  | schedule payload due fresh => rw [get?_schedule payload due fresh, if_neg ne]
  | claim member worker _ until_ =>
    rw [h.get?_replace member (Job.id_leased _ worker until_), if_neg ne]
  | keep member _ _ until_ =>
    rw [h.get?_replace member (Job.id_renewed _ until_), if_neg ne]
  | complete | forget => rw [get?_discard, if_neg ne]
  | retry member _ _ due =>
    rw [h.get?_replace member (Job.id_released _ due), if_neg ne]

theorem Coherent.apply (h : s.Coherent) {r : Request} (fresh : s.Fresh r) :
    (s.apply r).2.Coherent := by
  obtain idle | ⟨e, -, does⟩ := h.apply_cases fresh
  · rwa [idle.state]
  · exact h.does does

theorem Coherent.run (h : s.Coherent) {requests : List Request} (fresh : s.DrawsFresh requests) :
    (s.run requests).2.Coherent := by
  induction requests generalizing s with
  | nil => exact h
  | cons r rest ih => exact ih (h.apply fresh.1) fresh.2

end MemoryStore
end DelayedJobs
