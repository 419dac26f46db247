import DelayedJobs.Proofs.Table.Rows

/-!
The rows of a table beside the jobs of a memory store. The rows of pending jobs are the jobs in
memory, in the same order. The rows of finished jobs stay behind, and no job in memory has the
identifier of one. What the statements do to the rows, the operations in memory do to the jobs: a
row or a job takes the place of another, a row becomes finished where a job is taken out, a new one
comes last.
-/

namespace DelayedJobs

namespace JobRow

theorem isPending_ofJob {job : Job} (h : job.Pending) : (ofJob job).isPending = true := by
  rcases h with ⟨status, -⟩ | ⟨status, -⟩ <;> simp [isPending, ofJob, status]

theorem isDue_ofJob {job : Job} (h : job.Pending) {now : Instant} :
    (ofJob job).isDue now = true ↔ job.invisibleUntil ≤ now := by
  rw [isDue, isPending_ofJob h, Bool.true_and, decide_eq_true_iff]
  rfl

theorem isHeld_ofJob {job : Job} (h : job.Pending) {id : Uuid} {worker : WorkerId} :
    (ofJob job).isHeld id worker = true ↔ job.id = id ∧ job.claimedBy = some worker := by
  obtain ⟨workerId⟩ := worker
  rcases h with ⟨status, owner⟩ | ⟨status, ⟨ownerId⟩, owner⟩
  · simp [isHeld, ofJob, owner]
  · simp [isHeld, ofJob, status, owner]

theorem isPending_of_isHeld {row : JobRow} {id : Uuid} {worker : WorkerId}
    (h : row.isHeld id worker = true) : row.isPending = true := by
  rw [isPending, (Bool.and_eq_true_iff.mp h).2, Bool.or_true]

theorem isPending_of_isFinished {row : JobRow} (h : row.isFinished = true) :
    row.isPending = false := by
  rcases Bool.or_eq_true_iff.mp h with status | status <;>
    simp [isPending, eq_of_beq status, JobStatus.name]

end JobRow

structure Simulates (rows : List JobRow) (s : MemoryStore) : Prop where
  coherent : s.Coherent
  pending : rows.filter JobRow.isPending = s.jobs.map JobRow.ofJob
  kinds : ∀ row ∈ rows, row.isPending = true ∨ row.isFinished = true
  distinct : (rows.map JobRow.jobId).Nodup
  whole : ∀ row ∈ rows, row.onWire = row

namespace Simulates
variable {rows : List JobRow} {s : MemoryStore}

theorem empty : Simulates [] {} where
  coherent := MemoryStore.coherent_empty
  pending := rfl
  kinds := by simp
  distinct := List.nodup_nil
  whole := by simp

theorem ofJob_mem (h : Simulates rows s) {job : Job} (member : job ∈ s.jobs) :
    JobRow.ofJob job ∈ rows := by
  have known : JobRow.ofJob job ∈ rows.filter JobRow.isPending :=
    h.pending ▸ List.mem_map_of_mem member
  exact (List.mem_filter.mp known).1

theorem exists_job (h : Simulates rows s) {row : JobRow} (member : row ∈ rows)
    (pending : row.isPending = true) : ∃ job ∈ s.jobs, JobRow.ofJob job = row := by
  have known : row ∈ rows.filter JobRow.isPending := List.mem_filter.mpr ⟨member, pending⟩
  exact List.mem_map.mp (h.pending ▸ known)

theorem eq_of_id (h : Simulates rows s) {a b : JobRow} (ha : a ∈ rows) (hb : b ∈ rows)
    (same : a.jobId = b.jobId) : a = b :=
  List.inj_on_of_nodup_map h.distinct ha hb same

theorem absent (h : Simulates rows s) {row : JobRow} (member : row ∈ rows)
    (finished : row.isFinished = true) : s.get? row.jobId = none := by
  refine MemoryStore.get?_eq_none_iff.mpr fun job hj same => ?_
  obtain rfl := h.eq_of_id (h.ofJob_mem hj) member same
  have pending := JobRow.isPending_ofJob (h.coherent.pending job hj)
  exact Bool.false_ne_true ((JobRow.isPending_of_isFinished finished).symm.trans pending)

theorem fresh (h : Simulates rows s) {id : Uuid} (unused : ∀ row ∈ rows, row.jobId ≠ id) :
    s.get? id = none :=
  MemoryStore.get?_eq_none_iff.mpr fun _ hj => unused _ (h.ofJob_mem hj)

/-! Another row in the place of a pending one. -/

section put
variable {held : Job} {new : JobRow}

theorem filter_put (h : Simulates rows s) (member : held ∈ s.jobs) (same : new.jobId = held.id) :
    (JobRow.put new rows).filter JobRow.isPending =
      (s.jobs.map fun job => if job.id = held.id then new else .ofJob job).filter
        JobRow.isPending := by
  let f (row : JobRow) : JobRow := if row.jobId = new.jobId then new else row
  -- The row that gives way was pending, so no other row can become so.
  have before : ∀ row ∈ rows, (f row).isPending = ((f row).isPending && row.isPending) := by
    intro row hrow
    by_cases eq : row.jobId = new.jobId
    · rw [h.eq_of_id hrow (h.ofJob_mem member) (eq.trans same),
        JobRow.isPending_ofJob (h.coherent.pending held member), Bool.and_true]
    · rw [show f row = row from if_neg eq, Bool.and_self]
  calc (rows.map f).filter JobRow.isPending
      = ((rows.filter JobRow.isPending).map f).filter JobRow.isPending := by
        rw [List.filter_map, List.filter_map, List.filter_filter]
        exact congrArg (List.map f) (List.filter_congr before)
    _ = (s.jobs.map fun job => f (.ofJob job)).filter JobRow.isPending := by
        rw [h.pending, List.map_map]
        rfl
    _ = _ := by
        rw [← same]
        rfl

theorem put (h : Simulates rows s) (kind : new.isPending = true ∨ new.isFinished = true)
    (whole : new.onWire = new) {after : MemoryStore} (coherent : after.Coherent)
    (pending : (JobRow.put new rows).filter JobRow.isPending = after.jobs.map JobRow.ofJob) :
    Simulates (JobRow.put new rows) after where
  coherent := coherent
  pending := pending
  kinds row hrow := by
    rcases JobRow.mem_put hrow with rfl | hrow
    · exact kind
    · exact h.kinds row hrow
  distinct := by
    rw [JobRow.ids_put]
    exact h.distinct
  whole row hrow := by
    rcases JobRow.mem_put hrow with rfl | hrow
    · exact whole
    · exact h.whole row hrow

theorem replace (h : Simulates rows s) (member : held ∈ s.jobs) {job : Job}
    (same : job.id = held.id) (pending : job.Pending)
    (whole : (JobRow.ofJob job).onWire = .ofJob job) :
    Simulates (JobRow.put (.ofJob job) rows) (s.replace held job) := by
  refine h.put (.inl (JobRow.isPending_ofJob pending)) whole
    (h.coherent.replace member same pending) ?_
  have jobs : (s.jobs.map fun j => if j.id = held.id then JobRow.ofJob job else .ofJob j) =
      (s.replace held job).jobs.map JobRow.ofJob := by
    rw [MemoryStore.replace, MemoryStore.update, List.map_map, same]
    refine List.map_congr_left fun j _ => ?_
    exact (apply_ite JobRow.ofJob (j.id = held.id) job j).symm
  rw [h.filter_put member same, jobs, List.filter_eq_self]
  intro row hrow
  obtain ⟨j, hj, rfl⟩ := List.mem_map.mp hrow
  exact JobRow.isPending_ofJob ((h.coherent.replace member same pending).pending j hj)

theorem discard (h : Simulates rows s) (member : held ∈ s.jobs) (same : new.jobId = held.id)
    (finished : new.isFinished = true) (whole : new.onWire = new) :
    Simulates (JobRow.put new rows) (s.discard held) := by
  refine h.put (.inr finished) whole (h.coherent.discard member) ?_
  have others : ∀ job ∈ s.jobs,
      (if job.id = held.id then new else JobRow.ofJob job).isPending = (job.id != held.id) := by
    intro job hj
    by_cases eq : job.id = held.id
    · rw [if_pos eq, JobRow.isPending_of_isFinished finished, eq, bne_self_eq_false]
    · rw [if_neg eq, JobRow.isPending_ofJob (h.coherent.pending job hj), bne_iff_ne.mpr eq]
  rw [h.filter_put member same, List.filter_map, MemoryStore.discard]
  have kept : s.jobs.filter (JobRow.isPending ∘ fun job =>
      if job.id = held.id then new else JobRow.ofJob job) =
        s.jobs.filter fun job => job.id != held.id := List.filter_congr others
  rw [kept]
  refine List.map_congr_left fun job hj => if_neg ?_
  exact bne_iff_ne.mp (List.mem_filter.mp hj).2

end put

theorem schedule (h : Simulates rows s) {id : Uuid} (payload : Payload) {due : Instant}
    (unused : ∀ row ∈ rows, row.jobId ≠ id) (whole : due.wholeMicros = due) :
    Simulates (rows ++ [.ofJob (.new id payload due)]) (s.schedule id payload due) where
  coherent := h.coherent.schedule payload due (h.fresh unused)
  pending := by
    have new := JobRow.isPending_ofJob (Job.pending_new id payload due)
    rw [List.filter_append, h.pending, List.filter_singleton, new,
      MemoryStore.jobs_schedule payload due (h.fresh unused), List.map_append]
    rfl
  kinds row hrow := by
    rcases List.mem_append.mp hrow with hrow | hrow
    · exact h.kinds row hrow
    · rw [List.mem_singleton.mp hrow]
      exact .inl (JobRow.isPending_ofJob (Job.pending_new id payload due))
  distinct := by
    rw [List.map_append, List.map_singleton, List.nodup_append]
    refine ⟨h.distinct, List.nodup_singleton _, fun i hi j hj => ?_⟩
    obtain ⟨row, hrow, rfl⟩ := List.mem_map.mp hi
    rw [List.mem_singleton.mp hj]
    exact unused row hrow
  whole row hrow := by
    rcases List.mem_append.mp hrow with hrow | hrow
    · exact h.whole row hrow
    · rw [List.mem_singleton.mp hrow]
      simp [JobRow.onWire, JobRow.ofJob, Job.new, whole]

theorem prune (h : Simulates rows s) {gone : JobRow → Bool}
    (finished : ∀ row ∈ rows, gone row = true → row.isFinished = true) :
    Simulates (rows.filter fun row => !gone row) s where
  coherent := h.coherent
  pending := by
    rw [List.filter_filter, ← h.pending]
    refine List.filter_congr fun row hrow => ?_
    cases left : gone row with
    | false => rw [Bool.not_false, Bool.and_true]
    | true => rw [JobRow.isPending_of_isFinished (finished row hrow left), Bool.false_and]
  kinds row hrow := h.kinds row (List.mem_of_mem_filter hrow)
  distinct := h.distinct.sublist (List.filter_sublist.map JobRow.jobId)
  whole row hrow := h.whole row (List.mem_of_mem_filter hrow)

end Simulates
end DelayedJobs
