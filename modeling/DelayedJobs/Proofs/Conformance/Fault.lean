import DelayedJobs.Conformance.Fault
import DelayedJobs.Proofs.Store.Effect

/-!
What a fault does to the store underneath. It may turn a request into another one, leave it out or
give a wrong answer, but the store itself only ever serves requests; without a fault the answers are
those of the store.
-/

namespace DelayedJobs.Conformance
namespace FaultyStore
open Store (Request Answer)
variable {fault : StoreFault} {s : FaultyStore} {r : Request}

inductive Serves (s : MemoryStore) (r : Request) : MemoryStore → Prop
  | nothing : Serves s r s
  | one (q : Request) (own : ∀ id ∈ q.drawn?, id ∈ r.drawn?) : Serves s r (s.apply q).2
  | two (q q' : Request) (old : q.drawn? = none) (old' : q'.drawn? = none) :
      Serves s r ((s.apply q).2.apply q').2

theorem Serves.coherent {store after : MemoryStore} (h : Serves store r after)
    (coherent : store.Coherent) (fresh : store.Fresh r) : after.Coherent := by
  cases h with
  | nothing => exact coherent
  | one q own => exact coherent.apply fun id drawn => fresh id (own id drawn)
  | two q q' old old' =>
    have first := coherent.apply (r := q) (by rw [MemoryStore.Fresh, old]; exact nofun)
    exact first.apply (by rw [MemoryStore.Fresh, old']; exact nofun)

theorem serves_claim (fault : StoreFault) (s : FaultyStore) (worker : WorkerId)
    (now until_ : Instant) : ∃ at_ end_, (s.claim fault worker now until_).2.store =
      (s.store.apply (.claim worker at_ end_)).2 := by
  unfold claim
  dsimp only
  split
  · exact ⟨_, _, rfl⟩
  · split <;> exact ⟨_, _, rfl⟩

theorem serves_old {q : Request} (s : FaultyStore) (old : q.drawn? = none) :
    Serves s.store r (s.pass q).2.store :=
  .one q (by rw [old]; exact nofun)

theorem serves_prunePending (s : FaultyStore) (cutoff : Instant) :
    Serves s.store r (sound .prunePending s (.prune cutoff)).2.store := by
  let worker : WorkerId := ⟨.ofNat (Word.count128 - 1)⟩
  have claims : Serves s.store r (s.store.apply (.claim worker cutoff cutoff)).2 :=
    .one (.claim worker cutoff cutoff) nofun
  have completes (job : Job) : Serves s.store r
      ((s.store.apply (.claim worker cutoff cutoff)).2.apply (.complete worker job cutoff)).2 :=
    .two (.claim worker cutoff cutoff) (.complete worker job cutoff) rfl rfl
  dsimp only [MemoryStore.apply] at claims completes
  simp only [sound]
  cases (s.store.claim worker cutoff cutoff).1 with
  | none => exact claims
  | some job => exact completes job

theorem serves_sound (fault : StoreFault) (s : FaultyStore) (r : Request) :
    Serves s.store r (sound fault s r).2.store := by
  have asked (q : Request) : Serves s.store q (s.pass q).2.store := .one q fun _ => id
  unfold sound
  split
  next id payload due => exact .one (.schedule id ⟨payload.kind, .null⟩ due) fun _ same => same
  next => exact asked _
  next => exact .nothing
  next worker now until_ _ =>
    obtain ⟨at_, end_, eq⟩ := serves_claim fault s worker now until_
    dsimp only
    rw [eq]
    exact .one (.claim worker at_ end_) nofun
  next => exact asked _
  next => exact .nothing
  next => exact .nothing
  next => exact .nothing
  next => exact .nothing
  next => exact serves_old s rfl
  next => exact serves_old s rfl
  next => exact serves_old s rfl
  next => exact serves_old s rfl
  next => exact serves_old s rfl
  next => exact .nothing
  next => exact .nothing
  next cutoff => exact serves_prunePending s cutoff
  next => exact asked _

theorem serves_call (fault : StoreFault) (r : Request) (s : FaultyStore) :
    Serves s.store r (call fault r s).2.store := by
  rw [call]
  split
  · exact .nothing
  · exact serves_sound fault s r

theorem coherent_call (fault : StoreFault) (coherent : s.store.Coherent) (fresh : s.store.Fresh r) :
    (call fault r s).2.store.Coherent :=
  (serves_call fault r s).coherent coherent fresh

theorem call_failing (s : FaultyStore) (r : Request)
    (h : fault = .failingAll ∨ fault = .failing (callOf r)) :
    call fault r s = (.error (.unavailable "injected failure"), s) := by
  rw [call, if_pos h]

theorem call_sound (s : FaultyStore) (r : Request) :
    (call .sound r s).1 = .ok (s.store.apply r).1 ∧
      (call .sound r s).2.store = (s.store.apply r).2 := by
  rw [call, if_neg (by simp)]
  cases r with
  | claim worker now until_ =>
    simp only [sound, claim, MemoryStore.apply]
    split
    next some => simp [some]
    next none => simp [none]
  | _ => exact ⟨rfl, rfl⟩

theorem calls_sound (requests : List Request) (s : FaultyStore) :
    let after := StateT.run (m := Id) (requests.mapM (call .sound)) s
    after.1 = (s.store.run requests).1.map .ok ∧ after.2.store = (s.store.run requests).2 := by
  induction requests generalizing s with
  | nil => exact ⟨rfl, rfl⟩
  | cons r rest ih =>
    obtain ⟨answer, store⟩ := call_sound s r
    obtain ⟨answers, last⟩ := ih (call .sound r s).2
    rw [store] at answers last
    rw [List.mapM_cons]
    exact ⟨congrArg₂ List.cons answer answers, last⟩

end FaultyStore
end DelayedJobs.Conformance
