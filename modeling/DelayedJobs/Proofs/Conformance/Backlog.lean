import DelayedJobs.Proofs.Conformance.Single

/-!
The checks that finish several jobs and prune them. While jobs are scheduled all of them are due at
the time of the check; each claim then finds one, and finishing it moves it behind the cutoff.
-/

namespace DelayedJobs

namespace MemoryStore

theorem length_replace (s : MemoryStore) (old new : Job) :
    (s.replace old new).jobs.length = s.jobs.length :=
  List.length_map _

theorem Coherent.length_discard {s : MemoryStore} (h : s.Coherent) {job : Job}
    (member : job ∈ s.jobs) : (s.discard job).jobs.length + 1 = s.jobs.length := by
  have split := s.jobs.length_eq_countP_add_countP fun j => j.id == job.id
  have one : s.jobs.countP (fun j => j.id == job.id) = 1 := by
    have count := List.count_eq_one_of_mem h.distinct (List.mem_map_of_mem member)
    rwa [List.count, List.countP_map] at count
  rw [split, one, Nat.add_comm, List.countP_eq_length_filter]
  simp only [MemoryStore.discard, bne, Bool.decide_eq_true, decide_not]

end MemoryStore

namespace Conformance
open Check

variable {σ : Type} {setting : Setting σ} {batch : Nat} {Stands : σ → RetainingStore → Prop}
  {n k count : Nat} {s : RetainingStore} {verdict : Prop}

/-- After `n` draws the store holds `k` jobs, all of them due at the time of the check. -/
structure Stock (setting : Setting σ) (n k : Nat) (s : RetainingStore) : Prop where
  coherent : s.pending.Coherent
  size : s.pending.jobs.length = k
  due : ∀ job ∈ s.pending.jobs, job.invisibleUntil = setting.now
  drawn : ∀ job ∈ s.pending.jobs, ∃ m < n, job.id = setting.draw m
  finished : s.finished = []

theorem stock_empty : Stock setting n 0 {} where
  coherent := MemoryStore.coherent_empty
  size := rfl
  due := by simp
  drawn := by simp
  finished := rfl

/-- The store holds `k` due jobs, and `count` jobs that were finished at the time of the check. -/
structure Backlog (setting : Setting σ) (k count : Nat) (s : RetainingStore) : Prop where
  coherent : s.pending.Coherent
  size : s.pending.jobs.length = k
  due : ∀ job ∈ s.pending.jobs, job.invisibleUntil = setting.now
  finished : s.finished.length = count
  ended : ∀ f ∈ s.finished, f.finishedAt = setting.now

theorem Stock.backlog (h : Stock setting n k s) : Backlog setting k 0 s where
  coherent := h.coherent
  size := h.size
  due := h.due
  finished := by simp [h.finished]
  ended := by simp [h.finished]

theorem Backlog.length_prunable (h : Backlog setting k count s) {cutoff : Instant}
    (later : setting.now < cutoff) : (s.prunable cutoff).length = count := by
  rw [← h.finished, RetainingStore.prunable, List.filter_eq_self.mpr]
  intro f hf
  exact decide_eq_true (h.ended f hf ▸ later)

theorem Backlog.finishes (h : Backlog setting (k + 1) count s) (worker : WorkerId)
    (until_ : Instant) : ∃ job after,
      s.apply batch (.claim worker setting.now until_) = (.claimed (some job), after) ∧
        ∀ status,
          Backlog setting k (count + 1) (after.finish worker job.id status setting.now) := by
  obtain ⟨-, early⟩ | ⟨job, member, -, -, eq⟩ :=
    h.coherent.claim_cases worker setting.now until_
  · obtain ⟨job, hj⟩ :=
      List.exists_mem_of_length_pos (h.size ▸ k.succ_pos : 0 < s.pending.jobs.length)
    exact absurd (h.due job hj ▸ early job hj) (Int.lt_irrefl _)
  · let leased := job.leased worker until_
    have same : leased.id = job.id := rfl
    have coherent := h.coherent.replace member (job.id_leased worker until_)
      (job.pending_leased worker until_)
    have inside : leased ∈ (s.pending.replace job leased).jobs :=
      (MemoryStore.mem_replace member same).mpr (.inl rfl)
    have held : (s.pending.replace job leased).held? worker leased.id = some leased := by
      rw [MemoryStore.held?, coherent.get?_eq_some_iff.mpr ⟨inside, rfl⟩, Option.filter_some,
        job.isHeldBy_leased, if_pos rfl]
    have size := coherent.length_discard inside
    rw [MemoryStore.length_replace, h.size] at size
    refine ⟨leased, _, RetainingStore.apply_claim batch eq, fun status => ?_⟩
    simp only [RetainingStore.finish, MemoryStore.remove]
    rw [held]
    refine ⟨coherent.discard inside, Nat.succ.inj size, ?_, by simp [h.finished], ?_⟩
    · intro other hother
      obtain ⟨hother, ne⟩ := MemoryStore.mem_discard.mp hother
      rcases (MemoryStore.mem_replace member same).mp hother with rfl | ⟨hother, -⟩
      · exact absurd rfl ne
      · exact h.due other hother
    · simpa [or_imp, forall_and] using h.ended

namespace Sound

variable (sound : Sound setting batch Stands)
include sound

theorem schedule_more {kind : String} {data : Json} {f : Uuid → Check σ Unit}
    (stock : Stock setting n k s) (few : n ≤ backlogSize)
    (next : ∀ after, Stock setting (n + 1) (k + 1) after →
      Ends setting Stands (n + 1) after (f (setting.draw n)) verdict) :
    Ends setting Stands n s (Check.schedule kind data setting.now >>= f) verdict := by
  have unused : s.pending.get? (setting.draw n) = none := by
    rw [MemoryStore.get?_eq_none_iff]
    intro job hj
    obtain ⟨m, less, eq⟩ := stock.drawn job hj
    exact eq ▸ sound.draw_ne less few
  have jobs := MemoryStore.jobs_schedule ⟨kind, data⟩ setting.now unused
  refine sound.schedule ⟨?_, by simp [stock.finished]⟩ (next _ ?_)
  · rintro _ ⟨⟩
    exact unused
  · refine ⟨stock.coherent.schedule _ _ unused, ?_, ?_, ?_, stock.finished⟩
    · rw [jobs, List.length_append, stock.size, List.length_singleton]
    · rw [jobs, List.forall_mem_append, List.forall_mem_singleton]
      exact ⟨stock.due, rfl⟩
    · rw [jobs, List.forall_mem_append, List.forall_mem_singleton]
      refine ⟨fun job hj => ?_, n, Nat.lt_succ_self n, rfl⟩
      obtain ⟨m, less, eq⟩ := stock.drawn job hj
      exact ⟨m, Nat.lt_succ_of_lt less, eq⟩

theorem scheduleMany {kind : String} {f : Unit → Check σ Unit} {first : Nat}
    (stock : Stock setting n k s) (few : n + count ≤ backlogSize + 1)
    (next : ∀ after, Stock setting (n + count) (k + count) after →
      Ends setting Stands (n + count) after (f ()) verdict) :
    Ends setting Stands n s (scheduleMany kind setting.now count first >>= f) verdict := by
  induction count generalizing n k s first with
  | zero => exact next s stock
  | succ count ih =>
    rw [Conformance.scheduleMany, bind_assoc]
    refine sound.schedule_more stock (by omega) fun after stock => ih stock (by omega) ?_
    rwa [Nat.add_right_comm n, Nat.add_right_comm k]

theorem complete_next {worker : WorkerId} {f : Unit → Check σ Unit}
    (backlog : Backlog setting (k + 1) count s)
    (next : ∀ after, Backlog setting k (count + 1) after →
      Ends setting Stands n after (f ()) verdict) :
    Ends setting Stands n s
      (Check.claimSome worker setting.now >>= fun job =>
        Check.complete worker job setting.now >>= f) verdict := by
  obtain ⟨job, after, eq, left⟩ := backlog.finishes worker _
  exact sound.claimSome eq (sound.complete rfl (next _ (left _)))

theorem forget_next {worker : WorkerId} {f : Unit → Check σ Unit}
    (backlog : Backlog setting (k + 1) count s)
    (next : ∀ after, Backlog setting k (count + 1) after →
      Ends setting Stands n after (f ()) verdict) :
    Ends setting Stands n s
      (Check.claimSome worker setting.now >>= fun job =>
        Check.forget worker job setting.now >>= f) verdict := by
  obtain ⟨job, after, eq, left⟩ := backlog.finishes worker _
  exact sound.claimSome eq (sound.forget rfl (next _ (left _)))

theorem completeMany {worker : WorkerId} {f : Unit → Check σ Unit}
    (backlog : Backlog setting k count s)
    (next : ∀ after, Backlog setting 0 (count + k) after →
      Ends setting Stands n after (f ()) verdict) :
    Ends setting Stands n s (completeMany worker setting.now k >>= f) verdict := by
  induction k generalizing count s with
  | zero => exact next s backlog
  | succ k ih =>
    rw [Conformance.completeMany]
    simp only [bind_assoc]
    refine sound.complete_next backlog fun after backlog => ih backlog ?_
    rwa [Nat.add_right_comm count]

theorem pruneAll {cutoff : Instant} {rounds : Nat} {f : Unit → Check σ Unit}
    (positive : 1 ≤ batch) (few : (s.prunable cutoff).length ≤ rounds)
    (next : ∀ after, (after.prunable cutoff).length = 0 →
      Ends setting Stands n after (f ()) verdict) :
    Ends setting Stands n s (pruneAll cutoff rounds >>= f) verdict := by
  induction rounds generalizing s with
  | zero =>
    rw [Conformance.pruneAll, bind_assoc]
    refine sound.prune fun gone left prunes => ?_
    have none := prunes.count
    have rest := prunes.length_prunable
    exact ends_ensure (by simp; omega) (next left (by omega))
  | succ rounds ih =>
    rw [Conformance.pruneAll, bind_assoc]
    refine sound.prune fun gone left prunes => ?_
    have rest := prunes.length_prunable
    by_cases full : gone.length = batch
    · rw [decide_eq_true full]
      exact ih (by omega)
    · have count := prunes.count
      rw [decide_eq_false full]
      exact next left (by omega)

theorem pruneDrainsLargeBacklog_ends (positive : 1 ≤ batch) :
    Ends setting Stands 0 {} pruneDrainsLargeBacklog True := by
  refine ends_now (ends_drawWorker (sound.scheduleMany stock_empty (by decide) fun s stock => ?_))
  refine sound.completeMany stock.backlog fun s backlog => ?_
  have old := backlog.length_prunable (sound.lt_after (k := 1) (by decide) (by decide))
  refine sound.pruneAll positive (by omega) fun s none => sound.prune fun gone left prunes => ?_
  have count := prunes.count
  exact Ends.last (ends_ensure (by simp; omega) ends_pure)

/-- Two finished jobs make a full batch of a store whose batches hold one or two. -/
theorem pruneRemovesFinishedJobs_ends (positive : 1 ≤ batch) :
    Ends setting Stands 0 {} pruneRemovesFinishedJobs (3 ≤ batch) := by
  refine ends_now (ends_drawWorker ?_)
  refine sound.schedule_more stock_empty (by decide) fun s stock => ?_
  refine sound.schedule_more stock (by decide) fun s stock => ?_
  refine sound.complete_next stock.backlog fun s backlog => ?_
  refine sound.forget_next backlog fun s backlog => ?_
  have old := backlog.length_prunable (sound.lt_after (k := 1) (by decide) (by decide))
  refine sound.prune fun gone left prunes => ?_
  have count := prunes.count
  have rest := prunes.length_prunable
  by_cases large : 3 ≤ batch
  · rw [eq_true large]
    refine ends_ensure (by simp; omega) (sound.prune fun gone left prunes => ?_)
    have count := prunes.count
    exact Ends.last (ends_ensure (by simp; omega) ends_pure)
  · rw [eq_false large]
    exact ends_refused (by simp; omega)

end Sound
end Conformance
end DelayedJobs
