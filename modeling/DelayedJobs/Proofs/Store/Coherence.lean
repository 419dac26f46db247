import DelayedJobs.Proofs.Store.Index
import DelayedJobs.Store.Scan
import Mathlib.Data.List.Nodup

/-!
The states of the memory store. The operations lead only to states in which no two jobs share an
identifier, the index lists exactly the due times of the jobs, and a job is owned just when it is
claimed. What an operation can do to such a state is said once for each of them: it puts a job in
the place of another, takes one out, adds one, or changes nothing.
-/

namespace DelayedJobs
open ScanStore (key)

namespace Job

def leased (job : Job) (worker : WorkerId) (until_ : Instant) : Job :=
  { job with
    status := .claimed
    claimedBy := some worker
    invisibleUntil := until_
    attempt := job.attempt + 1 }

def renewed (job : Job) (until_ : Instant) : Job := { job with invisibleUntil := until_ }

def released (job : Job) (due : Instant) : Job :=
  { job with status := .ready, claimedBy := none, invisibleUntil := due }

@[simp] theorem id_leased (job : Job) (worker : WorkerId) (until_ : Instant) :
    (job.leased worker until_).id = job.id := rfl

theorem attempt_leased {job : Job} (below : job.attempt.toNat + 1 < Word.count32)
    (worker : WorkerId)
    (until_ : Instant) : (job.leased worker until_).attempt.toNat = job.attempt.toNat + 1 := by
  rw [leased, UInt32.toNat_add]
  exact Nat.mod_eq_of_lt below

@[simp] theorem id_renewed (job : Job) (until_ : Instant) : (job.renewed until_).id = job.id := rfl

@[simp] theorem id_released (job : Job) (due : Instant) : (job.released due).id = job.id := rfl

def Pending (job : Job) : Prop :=
  (job.status = .ready ∧ job.claimedBy = none) ∨
    (job.status = .claimed ∧ ∃ worker, job.claimedBy = some worker)

theorem isHeldBy_iff {job : Job} {worker : WorkerId} :
    job.isHeldBy worker = true ↔ job.status = .claimed ∧ job.claimedBy = some worker := by
  simp [isHeldBy]

theorem Pending.isHeldBy_iff {job : Job} (h : job.Pending) {worker : WorkerId} :
    job.isHeldBy worker = true ↔ job.claimedBy = some worker := by
  rw [Job.isHeldBy_iff, and_iff_right_iff_imp]
  intro owned
  rcases h with ⟨-, free⟩ | ⟨claimed, -⟩
  · simp [free] at owned
  · exact claimed

theorem Pending.isClaimable_iff {job : Job} (h : job.Pending) {now : Instant} :
    job.isClaimable now = true ↔ job.invisibleUntil ≤ now := by
  rcases h with ⟨status, -⟩ | ⟨status, -⟩ <;> simp [isClaimable, status]

theorem pending_new (id : Uuid) (payload : Payload) (due : Instant) :
    (Job.new id payload due).Pending :=
  .inl ⟨rfl, rfl⟩

theorem pending_leased (job : Job) (worker : WorkerId) (until_ : Instant) :
    (job.leased worker until_).Pending :=
  .inr ⟨rfl, worker, rfl⟩

theorem Pending.renewed {job : Job} (h : job.Pending) (until_ : Instant) :
    (job.renewed until_).Pending :=
  h

theorem pending_released (job : Job) (due : Instant) : (job.released due).Pending :=
  .inl ⟨rfl, rfl⟩

end Job

namespace MemoryStore
variable {s : MemoryStore}

structure Coherent (s : MemoryStore) : Prop where
  distinct : (s.jobs.map Job.id).Nodup
  ordered : DueEntry.Ordered s.queue
  indexed : ∀ e, e ∈ s.queue ↔ ∃ job ∈ s.jobs, key job = e
  pending : ∀ job ∈ s.jobs, job.Pending

theorem coherent_empty : Coherent {} where
  distinct := List.nodup_nil
  ordered := List.Pairwise.nil
  indexed := by simp
  pending := by simp

theorem Coherent.eq_of_id (h : s.Coherent) {a b : Job} (ha : a ∈ s.jobs) (hb : b ∈ s.jobs)
    (same : a.id = b.id) : a = b :=
  List.inj_on_of_nodup_map h.distinct ha hb same

theorem get?_eq_none_iff {id : Uuid} : s.get? id = none ↔ ∀ job ∈ s.jobs, job.id ≠ id := by
  simp [get?]

theorem id_of_get? {id : Uuid} {job : Job} (found : s.get? id = some job) : job.id = id := by
  simpa using List.find?_some found

theorem Coherent.get?_eq_some_iff (h : s.Coherent) {id : Uuid} {job : Job} :
    s.get? id = some job ↔ job ∈ s.jobs ∧ job.id = id := by
  constructor
  · intro found
    exact ⟨List.mem_of_find?_eq_some found, id_of_get? found⟩
  · rintro ⟨member, rfl⟩
    cases found : s.get? job.id with
    | none => exact absurd rfl (get?_eq_none_iff.mp found job member)
    | some other =>
      rw [h.eq_of_id (List.mem_of_find?_eq_some found) member (id_of_get? found)]

def replace (s : MemoryStore) (old new : Job) : MemoryStore :=
  (s.requeue old.id old.invisibleUntil new.invisibleUntil).update new

def discard (s : MemoryStore) (job : Job) : MemoryStore where
  jobs := s.jobs.filter fun j => j.id != job.id
  queue := s.queue.erase (key job)

theorem mem_replace {old new : Job} (member : old ∈ s.jobs)
    (same : new.id = old.id) {job : Job} :
    job ∈ (s.replace old new).jobs ↔ job = new ∨ (job ∈ s.jobs ∧ job.id ≠ old.id) := by
  simp only [replace, update, requeue, List.mem_map, same]
  constructor
  · rintro ⟨j, hj, rfl⟩
    split
    · exact .inl rfl
    next ne => exact .inr ⟨hj, ne⟩
  · rintro (rfl | ⟨hj, ne⟩)
    · exact ⟨old, member, if_pos rfl⟩
    · exact ⟨job, hj, if_neg ne⟩

theorem mem_discard {job j : Job} : j ∈ (s.discard job).jobs ↔ j ∈ s.jobs ∧ j.id ≠ job.id := by
  simp [discard]

theorem jobs_schedule {id : Uuid} (payload : Payload) (due : Instant) (fresh : s.get? id = none) :
    (s.schedule id payload due).jobs = s.jobs ++ [Job.new id payload due] := by
  have other : ∀ job ∈ s.jobs, job.id ≠ id := get?_eq_none_iff.mp fresh
  have same : s.jobs.filter (fun j => j.id != id) = s.jobs :=
    List.filter_eq_self.mpr fun j hj => by simpa using other j hj
  rw [schedule, same]

theorem mem_schedule {id : Uuid} {payload : Payload} {due : Instant} (fresh : s.get? id = none)
    {j : Job} :
    j ∈ (s.schedule id payload due).jobs ↔ j ∈ s.jobs ∨ j = Job.new id payload due := by
  rw [jobs_schedule payload due fresh, List.mem_append, List.mem_singleton]

theorem Coherent.replace (h : s.Coherent) {old new : Job} (member : old ∈ s.jobs)
    (same : new.id = old.id) (pending : new.Pending) : (s.replace old new).Coherent where
  distinct := by
    have ids : (s.replace old new).jobs.map Job.id = s.jobs.map Job.id := by
      simp only [MemoryStore.replace, update, requeue, List.map_map]
      refine List.map_congr_left fun j _ => ?_
      simp only [Function.comp_apply]
      split
      next eq => exact eq.symm
      next => rfl
    rw [ids]
    exact h.distinct
  ordered := (h.ordered.erase _).insert _
  indexed e := by
    have queue : e ∈ (s.replace old new).queue ↔ e = key new ∨ e ≠ key old ∧ e ∈ s.queue := by
      rw [MemoryStore.replace, update, requeue, DueEntry.mem_insert, h.ordered.mem_erase]
      simp [key, same]
    rw [queue, h.indexed]
    constructor
    · rintro (rfl | ⟨ne, job, hj, rfl⟩)
      · exact ⟨new, (mem_replace member same).mpr (.inl rfl), rfl⟩
      · refine ⟨job, (mem_replace member same).mpr (.inr ⟨hj, fun eq => ne ?_⟩), rfl⟩
        rw [h.eq_of_id hj member eq]
    · rintro ⟨job, hj, rfl⟩
      rcases (mem_replace member same).mp hj with rfl | ⟨hj, ne⟩
      · exact .inl rfl
      · exact .inr ⟨fun eq => ne (congrArg Prod.snd eq), job, hj, rfl⟩
  pending job hj := by
    rcases (mem_replace member same).mp hj with rfl | ⟨hj, -⟩
    · exact pending
    · exact h.pending job hj

theorem Coherent.discard (h : s.Coherent) {old : Job} (member : old ∈ s.jobs) :
    (s.discard old).Coherent where
  distinct := List.Nodup.sublist (List.filter_sublist.map Job.id) h.distinct
  ordered := h.ordered.erase _
  indexed e := by
    have queue : e ∈ (s.discard old).queue ↔ e ≠ key old ∧ e ∈ s.queue := h.ordered.mem_erase
    rw [queue, h.indexed]
    constructor
    · rintro ⟨ne, job, hj, rfl⟩
      refine ⟨job, mem_discard.mpr ⟨hj, fun eq => ne ?_⟩, rfl⟩
      rw [h.eq_of_id hj member eq]
    · rintro ⟨job, hj, rfl⟩
      obtain ⟨hj, ne⟩ := mem_discard.mp hj
      exact ⟨fun eq => ne (congrArg Prod.snd eq), job, hj, rfl⟩
  pending job hj := h.pending job (mem_discard.mp hj).1

theorem Coherent.schedule (h : s.Coherent) {id : Uuid} (payload : Payload) (due : Instant)
    (fresh : s.get? id = none) : (s.schedule id payload due).Coherent where
  distinct := by
    rw [jobs_schedule payload due fresh, List.map_append, List.nodup_append]
    refine ⟨h.distinct, List.nodup_singleton _, ?_⟩
    intro i hi k hk
    obtain ⟨job, hj, rfl⟩ := List.mem_map.mp hi
    rw [List.map_singleton, List.mem_singleton] at hk
    exact hk ▸ get?_eq_none_iff.mp fresh job hj
  ordered := h.ordered.insert _
  indexed e := by
    have queue : e ∈ (s.schedule id payload due).queue ↔ e = (due, id) ∨ e ∈ s.queue :=
      DueEntry.mem_insert
    rw [queue, h.indexed]
    constructor
    · rintro (rfl | ⟨job, hj, rfl⟩)
      · exact ⟨Job.new id payload due, (mem_schedule fresh).mpr (.inr rfl), rfl⟩
      · exact ⟨job, (mem_schedule fresh).mpr (.inl hj), rfl⟩
    · rintro ⟨job, hj, rfl⟩
      rcases (mem_schedule fresh).mp hj with hj | rfl
      · exact .inr ⟨job, hj, rfl⟩
      · exact .inl rfl
  pending job hj := by
    rcases (mem_schedule fresh).mp hj with hj | rfl
    · exact h.pending job hj
    · exact Job.pending_new id payload due

/-! What is found under an identifier afterwards. -/

theorem get?_update (job : Job) (id : Uuid) :
    (s.update job).get? id = (s.get? id).map fun j => if j.id = job.id then job else j := by
  have kept : ((fun j : Job => j.id == id) ∘ fun j => if j.id = job.id then job else j) =
      fun j => j.id == id := by
    funext j
    simp only [Function.comp_apply]
    split
    next eq => rw [eq]
    next => rfl
  rw [get?, update, List.find?_map, kept, get?]

theorem get?_replace {old new : Job} (found : s.get? old.id = some old) (same : new.id = old.id)
    (id : Uuid) : (s.replace old new).get? id = if id = old.id then some new else s.get? id := by
  have looked : (s.replace old new).get? id =
      (s.get? id).map fun j => if j.id = new.id then new else j := get?_update new id
  rw [looked]
  split
  next eq => rw [eq, found, Option.map_some, if_pos same.symm]
  next ne =>
    cases other : s.get? id with
    | none => rfl
    | some job =>
      rw [Option.map_some, if_neg]
      rwa [id_of_get? other, same]

theorem Coherent.get?_replace (h : s.Coherent) {old new : Job} (member : old ∈ s.jobs)
    (same : new.id = old.id) (id : Uuid) :
    (s.replace old new).get? id = if id = old.id then some new else s.get? id :=
  MemoryStore.get?_replace (h.get?_eq_some_iff.mpr ⟨member, rfl⟩) same id

theorem get?_discard (job : Job) (id : Uuid) :
    (s.discard job).get? id = if id = job.id then none else s.get? id := by
  split
  next eq =>
    rw [get?_eq_none_iff]
    rintro j hj rfl
    exact (mem_discard.mp hj).2 eq
  next ne =>
    simp only [get?, discard, List.find?_filter]
    congr 1
    funext j
    grind

theorem get?_schedule {id : Uuid} (payload : Payload) (due : Instant) (fresh : s.get? id = none)
    (other : Uuid) :
    (s.schedule id payload due).get? other =
      if other = id then some (Job.new id payload due) else s.get? other := by
  rw [get?, jobs_schedule payload due fresh, List.find?_append]
  split
  next eq =>
    subst eq
    have absent : s.jobs.find? (fun j => j.id == other) = none := fresh
    simp [absent, Job.new]
  next ne => simp [Job.new, Ne.symm ne, get?]

/-! What each operation does to a coherent state. -/

def owner? (s : MemoryStore) (id : Uuid) : Option WorkerId := (s.get? id).bind Job.claimedBy

theorem Coherent.held?_cases (h : s.Coherent) (worker : WorkerId) (id : Uuid) :
    (s.held? worker id = none ∧ s.owner? id ≠ some worker) ∨
      ∃ job ∈ s.jobs, job.id = id ∧ job.claimedBy = some worker ∧
        s.held? worker id = some job := by
  cases found : s.get? id with
  | none => exact .inl ⟨by rw [held?, found, Option.filter_none], by simp [owner?, found]⟩
  | some job =>
    obtain ⟨member, same⟩ := h.get?_eq_some_iff.mp found
    have held : job.isHeldBy worker = true ↔ job.claimedBy = some worker :=
      (h.pending job member).isHeldBy_iff
    by_cases owner : job.claimedBy = some worker
    · refine .inr ⟨job, member, same, owner, ?_⟩
      rw [held?, found, Option.filter_some, if_pos (held.mpr owner)]
    · refine .inl ⟨?_, by rwa [owner?, found]⟩
      rw [held?, found, Option.filter_some, if_neg (mt held.mp owner)]

theorem Coherent.claim_cases (h : s.Coherent) (worker : WorkerId) (now until_ : Instant) :
    (s.claim worker now until_ = (none, s) ∧ ∀ job ∈ s.jobs, now < job.invisibleUntil) ∨
      ∃ job ∈ s.jobs, job.invisibleUntil ≤ now ∧
        (∀ other ∈ s.jobs, ¬DueEntry.before (key other) (key job) = true) ∧
        s.claim worker now until_ =
          (some (job.leased worker until_), s.replace job (job.leased worker until_)) := by
  cases queue : s.queue with
  | nil =>
    refine .inl ⟨by rw [claim, queue], fun job hj => ?_⟩
    have entry : key job ∈ s.queue := (h.indexed _).mpr ⟨job, hj, rfl⟩
    simp [queue] at entry
  | cons first rest =>
    obtain ⟨job, member, rfl⟩ := (h.indexed first).mp (queue ▸ List.mem_cons_self)
    have least : ∀ other ∈ s.jobs, ¬DueEntry.before (key other) (key job) = true := by
      intro other hj
      have entry : key other ∈ s.queue := (h.indexed _).mpr ⟨other, hj, rfl⟩
      have ordered := h.ordered
      rw [queue] at entry ordered
      exact ordered.not_before_head entry
    by_cases due : now < job.invisibleUntil
    · refine .inl ⟨by rw [claim, queue]; exact if_pos due, fun other hj => ?_⟩
      exact Int.lt_of_lt_of_le due (DueEntry.time_le_of_not_before (least other hj))
    · refine .inr ⟨job, member, Int.not_lt.mp due, least, ?_⟩
      have found : s.get? job.id = some job := h.get?_eq_some_iff.mpr ⟨member, rfl⟩
      have moved : (s.requeue job.id job.invisibleUntil until_).get? job.id = some job := found
      rw [claim, queue]
      simp only [key, if_neg due, moved]
      rfl

theorem Coherent.keep_cases (h : s.Coherent) (worker : WorkerId) (id : Uuid) (until_ : Instant) :
    (s.keep worker id until_ = (false, s) ∧
        s.owner? id ≠ some worker) ∨
      ∃ job ∈ s.jobs, job.id = id ∧ job.claimedBy = some worker ∧
        s.keep worker id until_ = (true, s.replace job (job.renewed until_)) := by
  obtain ⟨held, other⟩ | ⟨job, member, rfl, owner, held⟩ := h.held?_cases worker id
  · exact .inl ⟨by rw [keep, held], other⟩
  · exact .inr ⟨job, member, rfl, owner, by rw [keep, held]; rfl⟩

theorem Coherent.retry_cases (h : s.Coherent) (worker : WorkerId) (id : Uuid) (due : Instant) :
    (s.retry worker id due = s ∧ s.owner? id ≠ some worker) ∨
      ∃ job ∈ s.jobs, job.id = id ∧ job.claimedBy = some worker ∧
        s.retry worker id due = s.replace job (job.released due) := by
  obtain ⟨held, other⟩ | ⟨job, member, rfl, owner, held⟩ := h.held?_cases worker id
  · exact .inl ⟨by rw [retry, held], other⟩
  · exact .inr ⟨job, member, rfl, owner, by rw [retry, held]; rfl⟩

theorem Coherent.remove_cases (h : s.Coherent) (worker : WorkerId) (id : Uuid) :
    (s.remove worker id = s ∧ s.owner? id ≠ some worker) ∨
      ∃ job ∈ s.jobs, job.id = id ∧ job.claimedBy = some worker ∧
        s.remove worker id = s.discard job := by
  obtain ⟨held, other⟩ | ⟨job, member, rfl, owner, held⟩ := h.held?_cases worker id
  · exact .inl ⟨by rw [remove, held], other⟩
  · exact .inr ⟨job, member, rfl, owner, by rw [remove, held]; rfl⟩

end MemoryStore
end DelayedJobs
