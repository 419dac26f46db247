import DelayedJobs.Proofs.Conformance.Trial
import DelayedJobs.Proofs.Time.Saturation

/-!
The checks with a single job. What each call does to a store that holds one pending job and nothing
else decides them.
-/

namespace DelayedJobs

theorem Job.isHeldBy_leased (job : Job) {worker : WorkerId} {until_ : Instant} :
    (job.leased worker until_).isHeldBy worker = true :=
  Job.isHeldBy_iff.mpr ⟨rfl, rfl⟩

theorem Job.isHeldBy_leased_of_ne (job : Job) (until_ : Instant) {owner other : Uuid}
    (ne : owner ≠ other) : (job.leased ⟨owner⟩ until_).isHeldBy ⟨other⟩ = false := by
  simp [Job.leased, Job.isHeldBy, ne]

namespace MemoryStore

def only (job : Job) : MemoryStore := ⟨[job], [(job.invisibleUntil, job.id)]⟩

variable {job new : Job} {worker : WorkerId} {now until_ due : Instant}

theorem replace_only (same : new.id = job.id) : (only job).replace job new = only new := by
  simp [only, replace, requeue, update, same, DueEntry.insert]

theorem held?_only (held : job.isHeldBy worker = true) :
    (only job).held? worker job.id = some job := by
  simp [only, held?, get?, Option.filter, held]

theorem held?_only_none (lost : job.isHeldBy worker = false) (id : Uuid) :
    (only job).held? worker id = none := by
  cases found : (only job).get? id with
  | none => rw [held?, found, Option.filter_none]
  | some j =>
    have eq : j = job := List.mem_singleton.mp (List.mem_of_find?_eq_some found)
    rw [held?, found, eq, Option.filter_some, lost, if_neg Bool.false_ne_true]

theorem claim_due (h : job.invisibleUntil ≤ now) :
    (only job).claim worker now until_ =
      (some (job.leased worker until_), only (job.leased worker until_)) := by
  have due : ¬now < job.invisibleUntil := Int.not_lt.mpr h
  have found : ((only job).requeue job.id job.invisibleUntil until_).get? job.id = some job := by
    simp [only, get?, requeue]
  rw [← replace_only (job.id_leased worker until_), claim]
  simp only [only, if_neg due] at found ⊢
  rw [found]
  rfl

theorem claim_early (h : now < job.invisibleUntil) :
    (only job).claim worker now until_ = (none, only job) :=
  if_pos h

end MemoryStore

namespace RetainingStore
open MemoryStore (only held?_only held?_only_none)

variable {batch : Nat} {job other : Job} {worker : WorkerId} {now until_ due : Instant}
  {finished : List FinishedJob}

theorem claim_empty :
    apply batch ⟨{}, finished⟩ (.claim worker now until_) = (.claimed none, ⟨{}, finished⟩) :=
  rfl

theorem claim_due (h : job.invisibleUntil ≤ now) :
    apply batch ⟨only job, finished⟩ (.claim worker now until_) =
      (.claimed (some (job.leased worker until_)),
        ⟨only (job.leased worker until_), finished⟩) :=
  apply_claim batch (MemoryStore.claim_due h)

theorem claim_early (h : now < job.invisibleUntil) :
    apply batch ⟨only job, finished⟩ (.claim worker now until_) =
      (.claimed none, ⟨only job, finished⟩) :=
  apply_claim batch (MemoryStore.claim_early h)

theorem keep_owner (same : other.id = job.id) (held : job.isHeldBy worker = true) :
    apply batch ⟨only job, finished⟩ (.keep worker other until_) =
      (.kept true, ⟨only (job.renewed until_), finished⟩) := by
  simp only [apply, MemoryStore.apply, MemoryStore.keep]
  rw [same, held?_only held, ← MemoryStore.replace_only (job.id_renewed until_)]
  rfl

theorem keep_stranger (lost : job.isHeldBy worker = false) :
    apply batch ⟨only job, finished⟩ (.keep worker other until_) =
      (.kept false, ⟨only job, finished⟩) := by
  simp only [apply, MemoryStore.apply, MemoryStore.keep, held?_only_none lost]

theorem retry_owner (same : other.id = job.id) (held : job.isHeldBy worker = true) :
    apply batch ⟨only job, finished⟩ (.retry worker other due) =
      (.done, ⟨only (job.released due), finished⟩) := by
  simp only [apply, MemoryStore.apply, MemoryStore.retry]
  rw [same, held?_only held, ← MemoryStore.replace_only (job.id_released due)]
  rfl

theorem finish_owner (same : other.id = job.id) (held : job.isHeldBy worker = true)
    (status : JobStatus) :
    (⟨only job, finished⟩ : RetainingStore).finish worker other.id status now =
      ⟨{}, finished ++ [⟨{ job with status := status }, now⟩]⟩ := by
  simp only [finish, MemoryStore.remove]
  rw [same, held?_only held]
  simp [only]

theorem finish_stranger (lost : job.isHeldBy worker = false) (status : JobStatus) :
    (⟨only job, finished⟩ : RetainingStore).finish worker other.id status now =
      ⟨only job, finished⟩ := by
  simp only [finish, held?_only_none lost]

theorem Prunes.eq_of_nil {cutoff : Instant} {pending : MemoryStore} {gone : List FinishedJob}
    {left : RetainingStore} (h : Prunes batch ⟨pending, []⟩ cutoff gone left) :
    left = ⟨pending, []⟩ := by
  have none := (List.append_eq_nil_iff.mp h.parts.eq_nil).2
  cases left
  exact congr (congrArg RetainingStore.mk h.pending) none

end RetainingStore

namespace Conformance
open Check RetainingStore
open MemoryStore (only)

variable {σ : Type} {setting : Setting σ} {batch : Nat} {Stands : σ → RetainingStore → Prop}

theorem nanos_seconds {k : Nat} (short : k ≤ 31536000) : (seconds k).nanos = k * 1000000000 :=
  Duration.nanos_ofSeconds (Nat.lt_of_le_of_lt short (by decide))

theorem nanos_days {k : Nat} (short : k ≤ 365) : (days k).nanos = k * 86400000000000 :=
  (nanos_seconds (k := k * 86400) (by omega)).trans (by omega)

theorem nanos_leaseEnd (t : Instant) :
    (leaseEnd t).nanos = min (t.nanos + 60000000000) Instant.maxNanos :=
  t.nanos_after .minute

namespace Sound

variable (sound : Sound setting batch Stands)
include sound

theorem draw_ne {m n : Nat} (less : m < n) (few : n ≤ backlogSize) :
    setting.draw m ≠ setting.draw n :=
  fun eq => absurd (sound.distinct m n (by omega) few eq) (by omega)

theorem nanos_after {k : Nat} (short : k ≤ 31536000) :
    (setting.now.after (seconds k)).nanos = setting.now.nanos + k * 1000000000 := by
  have late := sound.late
  rw [nanos_days (by decide)] at late
  rw [Instant.nanos_after, nanos_seconds short]
  omega

theorem nanos_leaseEnd : (leaseEnd setting.now).nanos = setting.now.nanos + 60000000000 := by
  have late := sound.late
  rw [nanos_days (by decide)] at late
  rw [Conformance.nanos_leaseEnd]
  omega

theorem nanos_expired :
    ((leaseEnd setting.now).after (seconds 1)).nanos = setting.now.nanos + 61000000000 := by
  have late := sound.late
  rw [nanos_days (by decide)] at late
  rw [Instant.nanos_after, nanos_seconds (by decide), sound.nanos_leaseEnd]
  omega

theorem lt_after {k : Nat} (long : 0 < k) (short : k ≤ 31536000) :
    setting.now < setting.now.after (seconds k) := by
  rw [Instant.lt_iff, sound.nanos_after short]
  omega

theorem lt_leaseEnd : setting.now < leaseEnd setting.now := by
  rw [Instant.lt_iff, sound.nanos_leaseEnd]
  omega

theorem leaseEnd_le_expired :
    leaseEnd setting.now ≤ (leaseEnd setting.now).after (seconds 1) := by
  rw [Instant.le_iff, sound.nanos_expired, sound.nanos_leaseEnd]
  omega

theorem schedule_first {n : Nat} {kind : String} {data : Json} {due : Instant} {verdict : Prop}
    {f : Uuid → Check σ Unit}
    (next : Ends setting Stands (n + 1) ⟨only (Job.new (setting.draw n) ⟨kind, data⟩ due), []⟩
      (f (setting.draw n)) verdict) :
    Ends setting Stands n {} (Check.schedule kind data due >>= f) verdict := by
  refine sound.schedule ⟨?_, ?_⟩ next
  · simp [MemoryStore.Fresh, MemoryStore.get?]
  · simp

theorem emptyStoreHasNothingToClaim_ends :
    Ends setting Stands 0 {} emptyStoreHasNothingToClaim True := by
  refine ends_drawWorker (ends_now (Ends.last ?_))
  exact sound.claimNone claim_empty ends_pure

theorem dueJobIsClaimed_ends : Ends setting Stands 0 {} dueJobIsClaimed True := by
  refine ends_now (ends_drawWorker (sound.schedule_first ?_))
  refine sound.claimSome (claim_due (setting.now.before_le _)) ?_
  refine ends_ensure (beq_self_eq_true _) (ends_ensure rfl (ends_ensure rfl (ends_ensure rfl ?_)))
  refine ends_ensure (beq_self_eq_true _) (ends_ensure (beq_self_eq_true _) (Ends.last ?_))
  exact ends_ensure (beq_self_eq_true _) ends_pure

theorem futureJobIsNotClaimed_ends : Ends setting Stands 0 {} futureJobIsNotClaimed True := by
  refine ends_now (sound.schedule_first (ends_drawWorker (Ends.last ?_)))
  exact sound.claimNone (claim_early (sound.lt_after (by decide) (by decide))) ends_pure

theorem liveLeaseHidesJob_ends : Ends setting Stands 0 {} liveLeaseHidesJob True := by
  refine ends_now (sound.schedule_first (ends_drawWorker ?_))
  refine sound.claim (claim_due (Int.le_refl _)) (ends_drawWorker ?_)
  refine sound.claim (claim_early sound.lt_leaseEnd) ?_
  exact ends_ensure rfl (Ends.last (ends_ensure rfl ends_pure))

theorem expiredLeaseIsReclaimable_ends :
    Ends setting Stands 0 {} expiredLeaseIsReclaimable True := by
  refine ends_now (sound.schedule_first (ends_drawWorker ?_))
  refine sound.claimSome (claim_due (Int.le_refl _)) (ends_drawWorker ?_)
  refine sound.claimSome (claim_due sound.leaseEnd_le_expired) ?_
  exact ends_ensure (beq_self_eq_true _) (Ends.last (ends_ensure rfl ends_pure))

theorem ownerKeepsClaim_ends : Ends setting Stands 0 {} ownerKeepsClaim True := by
  have renewed : (leaseEnd setting.now).after (seconds 1) < setting.now.after (seconds 300) := by
    rw [Instant.lt_iff, sound.nanos_expired, sound.nanos_after (by decide)]
    omega
  refine ends_now (ends_drawWorker (sound.schedule_first ?_))
  refine sound.claimSome (claim_due (Int.le_refl _)) ?_
  refine sound.keep (keep_owner rfl (Job.isHeldBy_leased _)) (ends_ensure rfl ?_)
  exact ends_drawWorker (Ends.last (sound.claimNone (claim_early renewed) ends_pure))

theorem otherWorkerCannotKeepClaim_ends :
    Ends setting Stands 0 {} otherWorkerCannotKeepClaim True := by
  have stranger := sound.draw_ne (m := 1) (n := 2) (by decide) (by decide)
  refine ends_now (sound.schedule_first (ends_drawWorker ?_))
  refine sound.claimSome (claim_due (Int.le_refl _)) (ends_drawWorker ?_)
  refine sound.keep (keep_stranger (Job.isHeldBy_leased_of_ne _ _ stranger)) (Ends.last ?_)
  exact ends_ensure rfl ends_pure

theorem hijackedOwnerCannotFinalize_ends :
    Ends setting Stands 0 {} hijackedOwnerCannotFinalize True := by
  have thief := (sound.draw_ne (m := 0) (n := 1) (by decide) (by decide)).symm
  have lost (job : Job) (until_ : Instant) := job.isHeldBy_leased_of_ne until_ thief
  refine ends_now (ends_drawWorker (ends_drawWorker (sound.schedule_first ?_)))
  refine sound.claimSome (claim_due (Int.le_refl _)) ?_
  refine sound.claimSome (claim_due sound.leaseEnd_le_expired) ?_
  refine sound.keep (keep_stranger (lost _ _)) (ends_ensure rfl ?_)
  refine sound.complete (finish_stranger (lost _ _) _) ?_
  refine sound.forget (finish_stranger (lost _ _) _) ?_
  refine sound.keep (keep_owner rfl (Job.isHeldBy_leased _)) (Ends.last ?_)
  exact ends_ensure rfl ends_pure

theorem completedJobIsNotClaimedAgain_ends :
    Ends setting Stands 0 {} completedJobIsNotClaimedAgain True := by
  refine ends_now (ends_drawWorker (sound.schedule_first ?_))
  refine sound.claimSome (claim_due (Int.le_refl _)) ?_
  refine sound.complete (finish_owner rfl (Job.isHeldBy_leased _) _) (Ends.last ?_)
  exact sound.claimNone claim_empty ends_pure

theorem retriedJobIsClaimedWithNextAttempt_ends :
    Ends setting Stands 0 {} retriedJobIsClaimedWithNextAttempt True := by
  refine ends_now (ends_drawWorker (sound.schedule_first ?_))
  refine sound.claimSome (claim_due (Int.le_refl _)) ?_
  refine sound.retry (retry_owner rfl (Job.isHeldBy_leased _)) ?_
  refine sound.claimNone (claim_early (sound.lt_after (by decide) (by decide))) ?_
  refine sound.claimSome (claim_due (Int.le_refl _)) (ends_ensure (beq_self_eq_true _) ?_)
  exact ends_ensure rfl (Ends.last (ends_ensure rfl ends_pure))

theorem forgottenJobIsNotClaimedAgain_ends :
    Ends setting Stands 0 {} forgottenJobIsNotClaimedAgain True := by
  refine ends_now (ends_drawWorker (sound.schedule_first ?_))
  refine sound.claimSome (claim_due (setting.now.before_le _)) (ends_ensure rfl ?_)
  refine sound.forget (finish_owner rfl (Job.isHeldBy_leased _) _) (Ends.last ?_)
  exact sound.claimNone claim_empty ends_pure

theorem pruneKeepsPendingJobs_ends : Ends setting Stands 0 {} pruneKeepsPendingJobs True := by
  refine ends_now (ends_drawWorker (sound.schedule_first (sound.prune fun gone left prunes => ?_)))
  rw [prunes.eq_of_nil]
  exact sound.claimSome (claim_due (setting.now.before_le _)) ends_pure

end Sound
end Conformance
end DelayedJobs
