import DelayedJobs.Conformance.Suite
import DelayedJobs.Proofs.Store.Effect
import DelayedJobs.Store.Retaining
import Mathlib.Logic.Function.Basic

/-!
Checks on a correct backend, which answers as a retaining store does and may delete any batch of the
old finished jobs when it prunes. A check is followed step by step; beside the state of the backend
goes the retaining store that it stands for.
-/

namespace DelayedJobs

namespace RetainingStore

def Fresh (s : RetainingStore) (r : Store.Request) : Prop :=
  s.pending.Fresh r ∧ ∀ id ∈ r.drawn?, ∀ f ∈ s.finished, f.job.id ≠ id

theorem apply_claim {s : RetainingStore} {worker : WorkerId} {now until_ : Instant}
    {job : Option Job} {pending : MemoryStore} (batch : Nat)
    (eq : s.pending.claim worker now until_ = (job, pending)) :
    s.apply batch (.claim worker now until_) = (.claimed job, { s with pending := pending }) := by
  simp only [apply, MemoryStore.apply, eq]

/-- One batch of the old finished jobs is deleted, or all of them if they are fewer. -/
structure Prunes (batch : Nat) (s : RetainingStore) (cutoff : Instant) (gone : List FinishedJob)
    (after : RetainingStore) : Prop where
  pending : after.pending = s.pending
  parts : (gone ++ after.finished).Perm s.finished
  old : ∀ f ∈ gone, f.finishedAt < cutoff
  count : gone.length = min batch (s.prunable cutoff).length

theorem fresh_of_drawn {s : RetainingStore} {r : Store.Request} (h : r.drawn? = none) :
    s.Fresh r := by
  simp [Fresh, MemoryStore.Fresh, h]

theorem Prunes.length_prunable {batch : Nat} {s after : RetainingStore} {cutoff : Instant}
    {gone : List FinishedJob} (h : s.Prunes batch cutoff gone after) :
    (after.prunable cutoff).length = (s.prunable cutoff).length - batch := by
  have parts := (h.parts.filter fun f => decide (f.finishedAt < cutoff)).length_eq
  have all : gone.filter (fun f => decide (f.finishedAt < cutoff)) = gone :=
    List.filter_eq_self.mpr fun f hf => decide_eq_true (h.old f hf)
  rw [List.filter_append, all, List.length_append, h.count] at parts
  simp only [prunable] at parts ⊢
  omega

theorem prunes_prune (s : RetainingStore) (batch : Nat) (cutoff : Instant) :
    s.Prunes batch cutoff ((s.prunable cutoff).take batch) (s.prune batch cutoff).2 where
  pending := rfl
  parts := by
    simp only [prune, prunable]
    rw [← List.append_assoc, List.take_append_drop]
    exact List.filter_append_perm _ _
  old f hf := by simpa using (List.mem_filter.mp (List.mem_of_mem_take hf)).2
  count := List.length_take

end RetainingStore

namespace Backend

/-- States of the backend stand for retaining stores, whose answers they give. -/
structure Retains {σ : Type} (backend : Backend σ) (batch : Nat)
    (Stands : σ → RetainingStore → Prop) : Prop where
  serves : ∀ {state s r}, Stands state s → s.Fresh r → (∀ cutoff, r ≠ .prune cutoff) →
    ∃ after, backend.call r state = (.ok (s.apply batch r).1, after) ∧
      Stands after (s.apply batch r).2
  prunes : ∀ {state s} cutoff, Stands state s → ∃ gone left after,
    backend.call (.prune cutoff) state = (.ok (.pruned (decide (gone.length = batch))), after) ∧
      s.Prunes batch cutoff gone left ∧ Stands after left

theorem retains_retaining (batch : Nat) : (RetainingStore.backend batch).Retains batch Eq where
  serves := by
    rintro _ s r rfl - -
    exact ⟨_, rfl, rfl⟩
  prunes := by
    rintro s _ cutoff rfl
    have full : (((s.prunable cutoff).take batch).length = batch) =
        (batch ≤ (s.prunable cutoff).length) := by
      rw [List.length_take]
      exact propext (by omega)
    refine ⟨_, _, _, ?_, s.prunes_prune batch cutoff, rfl⟩
    simp only [full]
    rfl

end Backend

namespace Conformance
open Check
open Store (Request)

variable {σ : Type}

/-- A correct backend, enough distinct identifiers, and a year of room around the time. -/
structure Sound (setting : Setting σ) (batch : Nat) (Stands : σ → RetainingStore → Prop) :
    Prop where
  retains : setting.backend.Retains batch Stands
  distinct : ∀ m n, m ≤ backlogSize → n ≤ backlogSize → setting.draw m = setting.draw n → m = n
  early : Instant.minNanos + (days 365).nanos ≤ setting.now.nanos
  late : setting.now.nanos + (days 365).nanos ≤ Instant.maxNanos

/-- From a store that `s` stands for, after `n` draws, the check passes just if `verdict` holds. -/
def Ends (setting : Setting σ) (Stands : σ → RetainingStore → Prop) (n : Nat) (s : RetainingStore)
    (check : Check σ Unit) (verdict : Prop) : Prop :=
  ∀ bench : Bench σ, bench.drawn = n → Stands bench.store s →
    ((∃ result, check setting bench = .ok result) ↔ verdict)

variable {setting : Setting σ} {batch : Nat} {Stands : σ → RetainingStore → Prop}
  {n : Nat} {s after : RetainingStore} {verdict : Prop}

theorem Ends.passes_iff {empty : σ} {check : Check σ Unit} (fresh : Stands empty {})
    (h : Ends setting Stands 0 {} check verdict) :
    check.passes setting empty = true ↔ verdict := by
  rw [← h { store := empty } rfl fresh, passes]
  cases check setting { store := empty } <;> simp

theorem Ends.last {check : Check σ Unit} (h : Ends setting Stands n s (check >>= pure) verdict) :
    Ends setting Stands n s check verdict := by
  rwa [bind_pure] at h

theorem ends_pure : Ends setting Stands n s (pure ()) True := by
  rintro bench - -
  exact iff_true_intro ⟨_, rfl⟩

theorem bind_ok {α : Type} {x : Check σ α} {f : α → Check σ Unit} {bench : Bench σ} {a : α}
    (next : Bench σ) (h : x setting bench = .ok (a, next)) :
    (x >>= f) setting bench = f a setting next := by
  show (x setting bench >>= fun p => f p.1 setting p.2) = _
  rw [h]
  rfl

theorem ends_now {f : Instant → Check σ Unit}
    (next : Ends setting Stands n s (f setting.now) verdict) :
    Ends setting Stands n s (now >>= f) verdict :=
  next

theorem ends_draw {f : Uuid → Check σ Unit}
    (next : Ends setting Stands (n + 1) s (f (setting.draw n)) verdict) :
    Ends setting Stands n s (draw >>= f) verdict := by
  rintro bench rfl stands
  rw [bind_ok { bench with drawn := bench.drawn + 1 } rfl]
  exact next _ rfl stands

theorem ends_drawWorker {f : WorkerId → Check σ Unit}
    (next : Ends setting Stands (n + 1) s (f ⟨setting.draw n⟩) verdict) :
    Ends setting Stands n s (drawWorker >>= f) verdict := by
  rw [drawWorker, bind_assoc]
  exact ends_draw next

theorem ends_ensure {b : Bool} {f : Unit → Check σ Unit} (holds : b = true)
    (next : Ends setting Stands n s (f ()) verdict) :
    Ends setting Stands n s (ensure b >>= f) verdict := by
  subst holds
  exact next

theorem ends_refused {b : Bool} {f : Unit → Check σ Unit} (fails : b = false) :
    Ends setting Stands n s (ensure b >>= f) False := by
  subst fails
  rintro bench - -
  exact iff_false_intro fun ⟨_, h⟩ => nomatch h

namespace Sound

variable (sound : Sound setting batch Stands)
include sound

theorem call {r : Request} {answer : Store.Answer} {f : Store.Answer → Check σ Unit}
    (fresh : s.Fresh r) (kept : ∀ cutoff, r ≠ .prune cutoff)
    (apply : s.apply batch r = (answer, after))
    (next : Ends setting Stands n after (f answer) verdict) :
    Ends setting Stands n s (call r >>= f) verdict := by
  rintro bench rfl stands
  obtain ⟨state, eq, left⟩ := sound.retains.serves stands fresh kept
  rw [apply] at eq left
  rw [bind_ok { bench with store := state } (by rw [Check.call, eq])]
  exact next _ rfl left

theorem prune {cutoff : Instant} {f : Bool → Check σ Unit}
    (next : ∀ gone left, s.Prunes batch cutoff gone left →
      Ends setting Stands n left (f (decide (gone.length = batch))) verdict) :
    Ends setting Stands n s (prune cutoff >>= f) verdict := by
  rintro bench rfl stands
  obtain ⟨gone, left, state, eq, prunes, stands⟩ := sound.retains.prunes cutoff stands
  rw [Check.prune, bind_assoc,
    bind_ok { bench with store := state } (by rw [Check.call, eq])]
  exact next gone left prunes _ rfl stands

theorem schedule {kind : String} {data : Json} {due : Instant} {f : Uuid → Check σ Unit}
    (fresh : s.Fresh (.schedule (setting.draw n) ⟨kind, data⟩ due))
    (next : Ends setting Stands (n + 1)
      { s with pending := s.pending.schedule (setting.draw n) ⟨kind, data⟩ due }
      (f (setting.draw n)) verdict) :
    Ends setting Stands n s (schedule kind data due >>= f) verdict := by
  rw [Check.schedule, bind_assoc]
  refine ends_draw ?_
  rw [bind_assoc]
  exact sound.call fresh (by simp) rfl next

theorem claim {worker : WorkerId} {now : Instant} {job : Option Job}
    {f : Option Job → Check σ Unit}
    (apply : s.apply batch (.claim worker now (leaseEnd now)) = (.claimed job, after))
    (next : Ends setting Stands n after (f job) verdict) :
    Ends setting Stands n s (claim worker now >>= f) verdict := by
  rw [Check.claim, bind_assoc]
  exact sound.call (RetainingStore.fresh_of_drawn rfl) (by simp) apply next

theorem claimSome {worker : WorkerId} {now : Instant} {job : Job} {f : Job → Check σ Unit}
    (apply : s.apply batch (.claim worker now (leaseEnd now)) = (.claimed (some job), after))
    (next : Ends setting Stands n after (f job) verdict) :
    Ends setting Stands n s (claimSome worker now >>= f) verdict := by
  rw [Check.claimSome, bind_assoc]
  exact sound.claim apply next

theorem claimNone {worker : WorkerId} {now : Instant} {f : Unit → Check σ Unit}
    (apply : s.apply batch (.claim worker now (leaseEnd now)) = (.claimed none, after))
    (next : Ends setting Stands n after (f ()) verdict) :
    Ends setting Stands n s (claimNone worker now >>= f) verdict := by
  rw [Check.claimNone, bind_assoc]
  exact sound.claim apply (ends_ensure rfl next)

theorem keep {worker : WorkerId} {job : Job} {until_ : Instant} {held : Bool}
    {f : Bool → Check σ Unit}
    (apply : s.apply batch (.keep worker job until_) = (.kept held, after))
    (next : Ends setting Stands n after (f held) verdict) :
    Ends setting Stands n s (keep worker job until_ >>= f) verdict := by
  rw [Check.keep, bind_assoc]
  exact sound.call (RetainingStore.fresh_of_drawn rfl) (by simp) apply next

theorem finish {r : Request} {f : Unit → Check σ Unit} (plain : r.drawn? = none)
    (kept : ∀ cutoff, r ≠ .prune cutoff) (apply : s.apply batch r = (.done, after))
    (next : Ends setting Stands n after (f ()) verdict) :
    Ends setting Stands n s (finish r >>= f) verdict := by
  rw [Check.finish, bind_assoc]
  exact sound.call (RetainingStore.fresh_of_drawn plain) kept apply next

theorem complete {worker : WorkerId} {job : Job} {now : Instant} {f : Unit → Check σ Unit}
    (eq : s.finish worker job.id .completed now = after)
    (next : Ends setting Stands n after (f ()) verdict) :
    Ends setting Stands n s (complete worker job now >>= f) verdict := by
  subst eq
  exact sound.finish rfl (by simp) rfl next

theorem forget {worker : WorkerId} {job : Job} {now : Instant} {f : Unit → Check σ Unit}
    (eq : s.finish worker job.id .failed now = after)
    (next : Ends setting Stands n after (f ()) verdict) :
    Ends setting Stands n s (forget worker job now >>= f) verdict := by
  subst eq
  exact sound.finish rfl (by simp) rfl next

theorem retry {worker : WorkerId} {job : Job} {due : Instant} {f : Unit → Check σ Unit}
    (apply : s.apply batch (.retry worker job due) = (.done, after))
    (next : Ends setting Stands n after (f ()) verdict) :
    Ends setting Stands n s (retry worker job due >>= f) verdict :=
  sound.finish rfl (by simp) apply next

end Sound
end Conformance
end DelayedJobs
