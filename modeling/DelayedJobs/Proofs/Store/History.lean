import DelayedJobs.Proofs.Store.Effect

/-!
The effects of many requests, as a log with the latest first. From the log alone one can tell from
when on a job may be claimed and who holds it, and the store always agrees.
-/

namespace DelayedJobs

namespace Store

namespace Effect

def visibleFrom? : Effect → Option Instant
  | scheduled due | retried due => some due
  | claimed _ until_ | renewed until_ => some until_
  | completed | forgotten => none

def leaseEnd? : Effect → Option Instant
  | claimed _ until_ | renewed until_ => some until_
  | _ => none

def claimant? : Effect → Option WorkerId
  | claimed worker _ => some worker
  | _ => none

def changesHands : Effect → Bool
  | claimed _ _ | completed | retried _ | forgotten => true
  | scheduled _ | renewed _ => false

def finishes : Effect → Bool
  | completed | forgotten => true
  | _ => false

end Effect

abbrev Log := List Entry

namespace Log

def last? (log : Log) (id : Uuid) : Option Effect :=
  (log.find? fun e => e.job = id).map Entry.effect

/-- The instant that the last effect on a job fixed for the next claim. -/
def visibleFrom? (log : Log) (id : Uuid) : Option Instant :=
  (log.last? id).bind Effect.visibleFrom?

/-- The worker of a claim that is the last of the claims, completions, retries and giving up of a
job. -/
def holder? (log : Log) (id : Uuid) : Option WorkerId :=
  (log.find? fun e => e.job = id && e.effect.changesHands).bind fun e => e.effect.claimant?

def Unfinished (log : Log) (id : Uuid) : Prop :=
  ∃ newer due older, log = newer ++ ⟨id, .scheduled due⟩ :: older ∧
    ∀ e ∈ newer, e.job = id → e.effect.finishes = false

theorem visibleFrom?_cons (e : Entry) (log : Log) (id : Uuid) :
    visibleFrom? (e :: log) id =
      if e.job = id then e.effect.visibleFrom? else visibleFrom? log id := by
  rw [visibleFrom?, last?, List.find?_cons]
  by_cases h : e.job = id
  · simp [h]
  · simp [h, visibleFrom?, last?]

theorem holder?_cons (e : Entry) (log : Log) (id : Uuid) :
    holder? (e :: log) id =
      if e.job = id ∧ e.effect.changesHands = true then e.effect.claimant? else holder? log id := by
  rw [holder?, List.find?_cons]
  by_cases h : e.job = id ∧ e.effect.changesHands = true
  · simp [h]
  · have other : (decide (e.job = id) && e.effect.changesHands) = false := by simpa using h
    simp only [if_neg h, other, holder?]

theorem Unfinished.cons {log : Log} {id : Uuid} (h : log.Unfinished id) {e : Entry}
    (he : e.job = id → e.effect.finishes = false) : Unfinished (e :: log) id := by
  obtain ⟨newer, due, older, rfl, kept⟩ := h
  refine ⟨e :: newer, due, older, rfl, fun d hd => ?_⟩
  obtain rfl | hd := List.mem_cons.mp hd
  · exact he
  · exact kept d hd

theorem unfinished_scheduled (id : Uuid) (due : Instant) (log : Log) :
    Unfinished (⟨id, .scheduled due⟩ :: log) id :=
  ⟨[], due, log, rfl, by simp⟩

end Log
end Store

namespace MemoryStore
open Store (Effect Entry Log Request)
variable {s : MemoryStore}

/-- The effects of a list of requests, the latest first. -/
def log (s : MemoryStore) : List Request → Log
  | [] => []
  | r :: rest => (s.apply r).2.log rest ++ (s.effect? r).toList

structure Agrees (log : Log) (s : MemoryStore) : Prop where
  visible : ∀ id, log.visibleFrom? id = (s.get? id).map Job.invisibleUntil
  holder : ∀ id, log.holder? id = s.owner? id
  unfinished : ∀ id, s.get? id ≠ none → log.Unfinished id

theorem agrees_empty : Agrees [] {} where
  visible _ := rfl
  holder _ := rfl
  unfinished _ h := absurd rfl h

theorem Agrees.replace {log : Log} (h : Agrees log s) (coherent : s.Coherent) {old new : Job}
    (member : old ∈ s.jobs) (same : new.id = old.id) {effect : Effect}
    (visible : effect.visibleFrom? = some new.invisibleUntil)
    (holder : (if effect.changesHands then effect.claimant? else old.claimedBy) = new.claimedBy)
    (finishes : effect.finishes = false) :
    Agrees (⟨old.id, effect⟩ :: log) (s.replace old new) := by
  have get := coherent.get?_replace member same
  have found : s.get? old.id = some old := coherent.get?_eq_some_iff.mpr ⟨member, rfl⟩
  constructor
  · intro id
    rw [Log.visibleFrom?_cons, get, h.visible]
    by_cases eq : old.id = id
    · simp [eq, visible]
    · simp [eq, Ne.symm eq]
  · intro id
    rw [Log.holder?_cons, h.holder, owner?, owner?, get]
    by_cases eq : old.id = id
    · subst eq
      simpa [found] using holder
    · simp [eq, Ne.symm eq]
  · intro id
    rw [get]
    by_cases eq : old.id = id
    · subst eq
      exact fun _ => (h.unfinished old.id (by simp [found])).cons fun _ => finishes
    · rw [if_neg (Ne.symm eq)]
      exact fun found => (h.unfinished id found).cons fun same => absurd same eq

theorem Agrees.discard {log : Log} (h : Agrees log s) (job : Job) {effect : Effect}
    (finishes : effect.finishes = true) : Agrees (⟨job.id, effect⟩ :: log) (s.discard job) := by
  have gone : effect.visibleFrom? = none ∧ effect.changesHands = true ∧
      effect.claimant? = none := by
    cases effect <;> simp_all [Effect.finishes, Effect.visibleFrom?, Effect.changesHands,
      Effect.claimant?]
  constructor
  · intro id
    rw [Log.visibleFrom?_cons, get?_discard, h.visible]
    by_cases eq : job.id = id
    · simp [eq, gone]
    · simp [eq, Ne.symm eq]
  · intro id
    rw [Log.holder?_cons, h.holder, owner?, owner?, get?_discard]
    by_cases eq : job.id = id
    · simp [eq, gone]
    · simp [eq, Ne.symm eq]
  · intro id found
    rw [get?_discard] at found
    by_cases eq : id = job.id
    · exact absurd (if_pos eq) found
    · rw [if_neg eq] at found
      exact (h.unfinished id found).cons fun same => absurd same.symm eq

theorem Agrees.schedule {log : Log} (h : Agrees log s) {id : Uuid} (payload : Payload)
    (due : Instant) (fresh : s.get? id = none) :
    Agrees (⟨id, .scheduled due⟩ :: log) (s.schedule id payload due) := by
  have get := get?_schedule payload due fresh
  constructor
  · intro other
    rw [Log.visibleFrom?_cons, get, h.visible]
    by_cases eq : id = other
    · simp [eq, Effect.visibleFrom?, Job.new]
    · simp [eq, Ne.symm eq]
  · intro other
    rw [Log.holder?_cons, h.holder, owner?, owner?, get]
    by_cases eq : id = other
    · simp [← eq, Effect.changesHands, fresh, Job.new]
    · simp [eq, Ne.symm eq]
  · intro other
    rw [get]
    by_cases eq : id = other
    · subst eq
      exact fun _ => Log.unfinished_scheduled id due log
    · rw [if_neg (Ne.symm eq)]
      exact fun found => (h.unfinished other found).cons fun same => absurd same eq

theorem Agrees.does {log : Log} (h : Agrees log s) (coherent : s.Coherent) {r : Request}
    {e : Entry} {after : MemoryStore} (does : s.Does r e after) : Agrees (e :: log) after := by
  cases does with
  | schedule payload due fresh => exact h.schedule payload due fresh
  | claim member worker _ until_ =>
    exact h.replace coherent member (Job.id_leased _ worker until_) rfl rfl rfl
  | keep member _ _ until_ =>
    exact h.replace coherent member (Job.id_renewed _ until_) rfl rfl rfl
  | complete | forget => exact h.discard _ rfl
  | retry member _ _ due =>
    exact h.replace coherent member (Job.id_released _ due) rfl rfl rfl

theorem Agrees.apply {log : Log} (h : Agrees log s) (coherent : s.Coherent) {r : Request}
    (fresh : s.Fresh r) : Agrees ((s.effect? r).toList ++ log) (s.apply r).2 := by
  obtain idle | ⟨e, effect, does⟩ := coherent.apply_cases fresh
  · rw [idle.effect, idle.state]
    exact h
  · rw [effect]
    exact h.does coherent does

theorem Agrees.run {log : Log} (h : Agrees log s) (coherent : s.Coherent)
    {requests : List Request} (fresh : s.DrawsFresh requests) :
    Agrees (s.log requests ++ log) (s.run requests).2 := by
  induction requests generalizing s log with
  | nil => exact h
  | cons r rest ih =>
    rw [MemoryStore.log, List.append_assoc]
    exact ih (h.apply coherent fresh.1) (coherent.apply fresh.1) fresh.2

end MemoryStore
end DelayedJobs
