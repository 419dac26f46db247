import DelayedJobs.Proofs.Store.Effect
import Mathlib

/-!
Claims in a row at one instant, with nothing else between them. Each takes the first of the jobs
that are due and moves it behind that instant, so none comes twice and none is passed over. What
matters is that the end of each lease lies after the instant, not how the ends compare with each
other.
-/

namespace DelayedJobs
open ScanStore (key)
open Store (Request Answer)

def Store.Answer.claimedId? : Answer → Option Uuid
  | claimed job => job.map Job.id
  | _ => none

namespace MemoryStore

/-- The jobs that are due at `now`, by due time and then by identifier. -/
def dueJobs (s : MemoryStore) (now : Instant) : List Job :=
  (s.jobs.filter fun job => decide (job.invisibleUntil ≤ now)).mergeSort
    fun a b => !DueEntry.before (key b) (key a)

def claimsAt (now : Instant) (claims : List (WorkerId × Instant)) : List Request :=
  claims.map fun c => .claim c.1 now c.2

structure Lists (s : MemoryStore) (now : Instant) (due : List Job) : Prop where
  ordered : due.Pairwise fun a b => DueEntry.before (key a) (key b) = true
  mem_iff : ∀ job, job ∈ due ↔ job ∈ s.jobs ∧ job.invisibleUntil ≤ now

variable {s : MemoryStore} {now : Instant} {due : List Job} {job : Job}

theorem mem_dueJobs : job ∈ s.dueJobs now ↔ job ∈ s.jobs ∧ job.invisibleUntil ≤ now := by
  rw [dueJobs, List.mem_mergeSort, List.mem_filter, decide_eq_true_iff]

theorem Coherent.lists_dueJobs (h : s.Coherent) (now : Instant) : s.Lists now (s.dueJobs now) where
  mem_iff _ := mem_dueJobs
  ordered := by
    have sorted : (s.dueJobs now).Pairwise fun a b => (!DueEntry.before (key b) (key a)) =
        true := by
      refine List.pairwise_mergeSort (fun a b c hab hbc => ?_) (fun a b => ?_) _
      · rw [Bool.not_eq_true', Bool.eq_false_iff] at *
        exact DueEntry.not_before_trans hab hbc
      · rw [Bool.or_eq_true, Bool.not_eq_true', Bool.not_eq_true', Bool.eq_false_iff,
          Bool.eq_false_iff, or_iff_not_imp_left, not_not]
        exact DueEntry.not_before_of_before
    have distinct : (s.dueJobs now).Pairwise (· ≠ ·) :=
      (List.mergeSort_perm _ _).nodup_iff.mpr ((h.distinct.of_map _).filter _)
    refine (sorted.and distinct).imp_of_mem fun {a b} ha hb ⟨notAfter, ne⟩ => ?_
    rw [Bool.not_eq_true', Bool.eq_false_iff] at notAfter
    refine DueEntry.before_of_not_before notAfter fun same => ne ?_
    exact h.eq_of_id (mem_dueJobs.mp ha).1 (mem_dueJobs.mp hb).1 (congrArg Prod.snd same)

namespace Lists

theorem id_ne (h : s.Lists now due) (coherent : s.Coherent) :
    due.Pairwise fun a b => a.id ≠ b.id := by
  refine h.ordered.imp_of_mem fun {a b} ha hb before same => ?_
  have eq := coherent.eq_of_id ((h.mem_iff a).mp ha).1 ((h.mem_iff b).mp hb).1 same
  exact DueEntry.ne_of_before before (congrArg key eq)

theorem claim_nil (h : s.Lists now []) (coherent : s.Coherent) (worker : WorkerId)
    (until_ : Instant) : s.claim worker now until_ = (none, s) := by
  obtain ⟨eq, -⟩ | ⟨job, member, due, -⟩ := coherent.claim_cases worker now until_
  · exact eq
  · exact absurd ((h.mem_iff job).mpr ⟨member, due⟩) List.not_mem_nil

theorem claim_cons (h : s.Lists now (job :: due)) (coherent : s.Coherent) (worker : WorkerId)
    (until_ : Instant) : s.claim worker now until_ =
      (some (job.leased worker until_), s.replace job (job.leased worker until_)) := by
  obtain ⟨member, soon⟩ := (h.mem_iff job).mp List.mem_cons_self
  obtain ⟨-, later⟩ | ⟨first, known, early, least, eq⟩ := coherent.claim_cases worker now until_
  · exact absurd (later job member) (Int.not_lt.mpr soon)
  · obtain rfl | behind := List.mem_cons.mp ((h.mem_iff first).mpr ⟨known, early⟩)
    · exact eq
    · exact absurd ((List.pairwise_cons.mp h.ordered).1 first behind) (least job member)

/-- The lease that a claim grants takes the job off the list and leaves the others on it. -/
theorem leased (h : s.Lists now (job :: due)) (coherent : s.Coherent) (worker : WorkerId)
    {until_ : Instant} (later : now < until_) :
    (s.replace job (job.leased worker until_)).Lists now due where
  ordered := (List.pairwise_cons.mp h.ordered).2
  mem_iff other := by
    obtain ⟨member, -⟩ := (h.mem_iff job).mp List.mem_cons_self
    have apart := (List.pairwise_cons.mp (h.id_ne coherent)).1
    rw [mem_replace member (job.id_leased worker until_)]
    constructor
    · intro hother
      obtain ⟨known, soon⟩ := (h.mem_iff other).mp (List.mem_cons_of_mem _ hother)
      exact ⟨.inr ⟨known, (apart other hother).symm⟩, soon⟩
    · rintro ⟨rfl | ⟨known, ne⟩, soon⟩
      · exact absurd later (Int.not_lt.mpr soon)
      · obtain rfl | hother := List.mem_cons.mp ((h.mem_iff other).mpr ⟨known, soon⟩)
        · exact absurd rfl ne
        · exact hother

end Lists

structure Drains (s : MemoryStore) (due : List Job) (claims : List (WorkerId × Instant))
    (answers : List Answer) (after : MemoryStore) : Prop where
  leases : answers = claims.mapIdx fun k (worker, until_) =>
    .claimed (due[k]?.map fun job : Job => job.leased worker until_)
  brought : answers.filterMap Answer.claimedId? = (due.take claims.length).map Job.id
  taken : ∀ (k : Nat) (job : Job) worker until_, due[k]? = some job →
    claims[k]? = some (worker, until_) → after.get? job.id = some (job.leased worker until_)
  others : ∀ id, id ∉ (due.take claims.length).map Job.id → after.get? id = s.get? id

theorem Coherent.drains (h : s.Coherent) (lists : s.Lists now due)
    {claims : List (WorkerId × Instant)} (later : ∀ c ∈ claims, now < c.2) :
    s.Drains due claims (s.run (claimsAt now claims)).1 (s.run (claimsAt now claims)).2 := by
  induction claims generalizing s due with
  | nil => exact ⟨rfl, rfl, fun _ _ _ _ _ none => by simp at none, fun _ _ => rfl⟩
  | cons c rest ih =>
    obtain ⟨worker, until_⟩ := c
    obtain ⟨first, others⟩ := List.forall_mem_cons.mp later
    rw [claimsAt, List.map_cons, MemoryStore.run, MemoryStore.apply]
    cases due with
    | nil =>
      have next := ih h lists others
      rw [lists.claim_nil h worker until_]
      refine ⟨?_, ?_, fun _ _ _ _ none => by simp at none, ?_⟩
      · rw [List.mapIdx_cons]
        exact congrArg _ next.leases
      · exact next.brought.trans (by simp)
      · intro id _
        exact next.others id (by simp)
    | cons job due =>
      have member := ((lists.mem_iff job).mp List.mem_cons_self).1
      have same := job.id_leased worker until_
      have pending := job.pending_leased worker until_
      have next := ih (h.replace member same pending) (lists.leased h worker first) others
      have apart := (List.pairwise_cons.mp (lists.id_ne h)).1
      have get (id : Uuid) := h.get?_replace member same id
      rw [lists.claim_cons h worker until_]
      refine ⟨?_, ?_, ?_, ?_⟩
      · rw [List.mapIdx_cons]
        exact congrArg _ next.leases
      · exact congrArg (job.id :: ·) next.brought
      · intro k other worker' until' hjob hclaim
        cases k with
        | zero =>
          cases hjob
          cases hclaim
          -- The later claims are about other jobs.
          refine (next.others job.id fun known => ?_).trans ((get job.id).trans (if_pos rfl))
          obtain ⟨behind, hbehind, eq⟩ := List.mem_map.mp known
          exact apart behind (List.mem_of_mem_take hbehind) eq.symm
        | succ k => exact next.taken k other worker' until' hjob hclaim
      · intro id untouched
        rw [List.length_cons, List.take_succ_cons, List.map_cons, List.mem_cons, not_or]
          at untouched
        exact (next.others id untouched.2).trans ((get id).trans (if_neg untouched.1))

/-- After any history, claims in a row at one instant, whose leases end later, bring the due jobs
one after the other, by due time and then by identifier, each once and leased to the worker that
claims, with its attempt raised by one; only a job that was claimed 2^32 - 1 times starts again at
zero. Once there are no more of them the claims find nothing. Every other job stays as it is. -/
theorem claims_drain_due_jobs (history : List Request) (fresh : MemoryStore.DrawsFresh {} history)
    (now : Instant) (claims : List (WorkerId × Instant)) (later : ∀ c ∈ claims, now < c.2) :
    let s := (run {} history).2
    let due := s.dueJobs now
    let answers := (s.run (claims.map fun c => .claim c.1 now c.2)).1
    let after := (s.run (claims.map fun c => .claim c.1 now c.2)).2
    (∀ job, job ∈ due ↔ job ∈ s.jobs ∧ job.invisibleUntil ≤ now) ∧
      due.Pairwise (fun a b => a.id ≠ b.id ∧ (a.invisibleUntil < b.invisibleUntil ∨
        a.invisibleUntil = b.invisibleUntil ∧ a.id < b.id)) ∧
      answers = claims.mapIdx (fun k (worker, until_) => .claimed (due[k]?.map fun job : Job =>
        { job with
          status := .claimed
          claimedBy := some worker
          invisibleUntil := until_
          attempt := job.attempt + 1 })) ∧
      answers.filterMap Answer.claimedId? = (due.take claims.length).map Job.id ∧
      (∀ (k : Nat) (job : Job) worker until_, due[k]? = some job →
        claims[k]? = some (worker, until_) → after.get? job.id = some (job.leased worker until_)) ∧
      (∀ job ∈ due, ∀ worker until_, job.attempt.toNat + 1 < Word.count32 →
        (job.leased worker until_).attempt.toNat = job.attempt.toNat + 1) ∧
      (∀ id, id ∉ (due.take claims.length).map Job.id → after.get? id = s.get? id) ∧
      ∀ job ∈ s.jobs, now < job.invisibleUntil → after.get? job.id = some job := by
  intro s due answers after
  have coherent : s.Coherent := coherent_empty.run fresh
  have lists : s.Lists now due := coherent.lists_dueJobs now
  have drains := coherent.drains lists later
  refine ⟨lists.mem_iff, ?_, drains.leases, drains.brought, drains.taken,
    fun job _ worker until_ below => job.attempt_leased below worker until_, drains.others, ?_⟩
  · exact ((lists.id_ne coherent).and lists.ordered).imp fun ⟨ne, before⟩ =>
      ⟨ne, DueEntry.before_iff.mp before⟩
  · intro job member early
    refine (drains.others job.id fun taken => ?_).trans
      (coherent.get?_eq_some_iff.mpr ⟨member, rfl⟩)
    obtain ⟨other, hother, same⟩ := List.mem_map.mp taken
    obtain ⟨known, soon⟩ := (lists.mem_iff other).mp (List.mem_of_mem_take hother)
    rw [coherent.eq_of_id known member same] at soon
    exact Int.not_le.mpr early soon

def mixedDues : List Request :=
  let mail : Payload := ⟨"mail", .null⟩
  [.schedule (.ofNat 3) mail .epoch, .schedule (.ofNat 1) mail .epoch,
    .claim ⟨.ofNat 7⟩ .epoch .earliest, .schedule (.ofNat 2) mail .epoch,
    .schedule (.ofNat 4) mail (.nearest 1)]

def unevenLeases : List (WorkerId × Instant) :=
  [(⟨.ofNat 8⟩, .latest), (⟨.ofNat 9⟩, .nearest 1), (⟨.ofNat 7⟩, .nearest 5),
    (⟨.ofNat 8⟩, .nearest 2)]

theorem unevenLeases_drain :
    MemoryStore.DrawsFresh {} mixedDues ∧ (∀ c ∈ unevenLeases, Instant.epoch < c.2) ∧
      let s := (run {} mixedDues).2
      let after := s.run (unevenLeases.map fun c => .claim c.1 .epoch c.2)
      after.1.map Answer.claimedId? = [some (.ofNat 1), some (.ofNat 2), some (.ofNat 3), none] ∧
        after.1.filterMap Answer.claimedId? = (s.dueJobs .epoch).map Job.id ∧
        after.2.get? (.ofNat 4) = s.get? (.ofNat 4) := by
  have fresh : MemoryStore.DrawsFresh {} mixedDues := by decide
  have later : ∀ c ∈ unevenLeases, Instant.epoch < c.2 := by decide
  have dues : ((run {} mixedDues).2.dueJobs .epoch).map Job.id =
      [.ofNat 1, .ofNat 2, .ofNat 3] := by cbv
  have drained := claims_drain_due_jobs mixedDues fresh .epoch unevenLeases later
  simp only [List.map_take, dues] at drained
  refine ⟨fresh, later, rfl, ?_, drained.2.2.2.2.2.2.1 _ (by decide)⟩
  rw [dues]
  exact drained.2.2.2.1

end MemoryStore
end DelayedJobs
