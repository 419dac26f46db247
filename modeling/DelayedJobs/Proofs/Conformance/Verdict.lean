import DelayedJobs.Proofs.Conformance.Race

/-!
What the whole suite says about a correct backend. A prune reports more work just after a full
batch, so that the two finished jobs of one check must not make one; nothing else depends on the
size of a batch.
-/

namespace DelayedJobs.Conformance

variable {σ : Type} {setting : Setting σ} {batch : Nat} {Stands : σ → RetainingStore → Prop}

theorem Ends.congr {n : Nat} {s : RetainingStore} {check : Check σ Unit} {p q : Prop}
    (h : Ends setting Stands n s check p) (iff : p ↔ q) : Ends setting Stands n s check q :=
  fun bench drawn stands => (h bench drawn stands).trans iff

theorem Sound.checks_end (sound : Sound setting batch Stands) (positive : 1 ≤ batch) :
    ∀ entry ∈ checks, Ends setting Stands 0 {} entry.2
      (entry.1 = "prune_removes_finished_jobs" → 3 ≤ batch) := by
  simp only [checks, List.forall_mem_cons, List.not_mem_nil, false_implies, implies_true, and_true]
  refine ⟨sound.emptyStoreHasNothingToClaim_ends.congr ?_, sound.dueJobIsClaimed_ends.congr ?_,
    sound.futureJobIsNotClaimed_ends.congr ?_, sound.liveLeaseHidesJob_ends.congr ?_,
    sound.expiredLeaseIsReclaimable_ends.congr ?_, sound.ownerKeepsClaim_ends.congr ?_,
    sound.otherWorkerCannotKeepClaim_ends.congr ?_, sound.hijackedOwnerCannotFinalize_ends.congr ?_,
    sound.completedJobIsNotClaimedAgain_ends.congr ?_,
    sound.retriedJobIsClaimedWithNextAttempt_ends.congr ?_,
    sound.forgottenJobIsNotClaimedAgain_ends.congr ?_,
    (sound.pruneRemovesFinishedJobs_ends positive).congr ?_,
    sound.pruneKeepsPendingJobs_ends.congr ?_,
    (sound.pruneDrainsLargeBacklog_ends positive).congr ?_,
    sound.concurrentClaimsAreExclusive_ends.congr ?_⟩
  all_goals simp

/-- A correct backend passes every check, whatever its batches hold and however the racing workers
take turns, but for the check whose two finished jobs are a full batch of one or two. -/
theorem correct_backend_passes_iff {empty : σ} (positive : 1 ≤ batch)
    (sound : Sound setting batch Stands) (fresh : Stands empty {}) :
    (∀ entry ∈ checks, entry.2.passes setting empty = true ↔
      (entry.1 = "prune_removes_finished_jobs" → 3 ≤ batch)) ∧
    (passesAll setting empty = true ↔ 3 ≤ batch) := by
  have each : ∀ entry ∈ checks, entry.2.passes setting empty = true ↔
      (entry.1 = "prune_removes_finished_jobs" → 3 ≤ batch) :=
    fun entry member => (sound.checks_end positive entry member).passes_iff fresh
  refine ⟨each, ?_⟩
  rw [passesAll, List.all_eq_true]
  constructor
  · intro all
    have member : ("prune_removes_finished_jobs", pruneRemovesFinishedJobs) ∈ checks (σ := σ) := by
      simp [checks]
    exact (each _ member).mp (all _ member) rfl
  · exact fun large entry member => (each entry member).mpr fun _ => large

def counting (batch : Nat) : Setting RetainingStore where
  backend := RetainingStore.backend batch
  draw n := .ofNat (n + 1)
  now := .epoch

theorem sound_counting (batch : Nat) : Sound (counting batch) batch Eq where
  retains := Backend.retains_retaining batch
  distinct m n hm hn eq := by
    have value := congrArg Uuid.value eq
    simp only [counting, Uuid.ofNat, Word.count128, backlogSize] at value hm hn
    omega
  early := (by decide : Instant.minNanos + (days 365).nanos ≤ Instant.epoch.nanos)
  late := (by decide : Instant.epoch.nanos + (days 365).nanos ≤ Instant.maxNanos)

theorem counting_passes_from_three :
    passesAll (counting 3) {} = true ∧ passesAll (counting 2) {} = false := by
  have three := (correct_backend_passes_iff (by decide) (sound_counting 3) rfl).2
  have two := (correct_backend_passes_iff (by decide) (sound_counting 2) rfl).2
  exact ⟨three.mpr (by decide), by simpa using two⟩

end DelayedJobs.Conformance
