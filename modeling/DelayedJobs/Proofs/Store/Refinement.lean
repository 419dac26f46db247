import DelayedJobs.Proofs.Store.Effect

/-!
The indexed store and the plain one answer alike. In a coherent state the head of the index is the
job that a look at every job would find, so each call brings the same answer and leaves the same
jobs in both. The jobs may also be looked at and counted in between.
-/

namespace DelayedJobs
open ScanStore (key)

namespace Store

inductive Call where
  | request (r : Request)
  | get (id : Uuid)
  | size

inductive Reply where
  | answer (a : Answer)
  | job (job : Option Job)
  | size (n : Nat)

def Call.request? : Call → Option Request
  | request r => some r
  | _ => none

def requests (calls : List Call) : List Request := calls.filterMap Call.request?

def replies {σ : Type} (reply : σ → Call → Reply × σ) (s : σ) : List Call → List Reply × σ
  | [] => ([], s)
  | c :: rest =>
    let (r, s) := reply s c
    let (rs, s) := replies reply s rest
    (r :: rs, s)

end Store

def MemoryStore.reply (s : MemoryStore) : Store.Call → Store.Reply × MemoryStore
  | .request r =>
    let (answer, s) := s.apply r
    (.answer answer, s)
  | .get id => (.job (s.get? id), s)
  | .size => (.size s.size, s)

def ScanStore.reply (s : ScanStore) : Store.Call → Store.Reply × ScanStore
  | .request r =>
    let (answer, s) := s.apply r
    (.answer answer, s)
  | .get id => (.job (s.get? id), s)
  | .size => (.size s.size, s)

namespace ScanStore

theorem earlier_eq (a b : Job) : earlier a b = a ∨ earlier a b = b := by
  rw [earlier]
  split <;> simp

/-- A job that nothing precedes among those seen so far stays so when a further one is seen. -/
theorem not_before_earlier {a b c : Job} (h : c = b ∨ ¬DueEntry.before (key c) (key a) = true) :
    ¬DueEntry.before (key c) (key (earlier a b)) = true := by
  rw [earlier]
  split
  next ba =>
    rcases h with rfl | h
    · simp [DueEntry.before_irrefl]
    · exact fun cb => h (DueEntry.before_trans cb ba)
  next ba =>
    rcases h with rfl | h
    · exact ba
    · exact h

theorem foldl_earlier_mem (rest : List Job) (job : Job) : rest.foldl earlier job ∈ job :: rest := by
  induction rest generalizing job with
  | nil => exact List.mem_cons_self
  | cons next rest ih =>
    rcases List.mem_cons.mp (ih (earlier job next)) with same | later
    · rw [List.foldl_cons, same]
      rcases earlier_eq job next with eq | eq <;> simp [eq]
    · exact List.mem_cons_of_mem _ (List.mem_cons_of_mem _ later)

theorem not_before_foldl_earlier (rest : List Job) (job : Job) {c : Job}
    (h : c ∈ rest ∨ ¬DueEntry.before (key c) (key job) = true) :
    ¬DueEntry.before (key c) (key (rest.foldl earlier job)) = true := by
  induction rest generalizing job with
  | nil => exact h.resolve_left List.not_mem_nil
  | cons next rest ih =>
    apply ih
    rcases h with h | h
    · rcases List.mem_cons.mp h with same | h
      · exact .inr (not_before_earlier (.inl same))
      · exact .inl h
    · exact .inr (not_before_earlier (.inr h))

theorem first?_eq_none_iff {s : ScanStore} {now : Instant} :
    s.first? now = none ↔ ∀ job ∈ s.jobs, ¬job.isClaimable now = true := by
  rw [first?, ← List.filter_eq_nil_iff]
  split
  next eq => simp [eq]
  next eq => simp [eq]

theorem first?_eq_some {s : ScanStore} {now : Instant} {job : Job} (h : s.first? now = some job) :
    job ∈ s.jobs ∧ job.isClaimable now = true ∧
      ∀ other ∈ s.jobs, other.isClaimable now = true →
        ¬DueEntry.before (key other) (key job) = true := by
  rw [first?] at h
  split at h
  · cases h
  next first rest eq =>
    obtain rfl := Option.some.inj h
    have member := foldl_earlier_mem rest first
    rw [← eq, List.mem_filter] at member
    refine ⟨member.1, member.2, fun other hother claimable => ?_⟩
    have seen : other ∈ first :: rest := eq ▸ List.mem_filter.mpr ⟨hother, claimable⟩
    apply not_before_foldl_earlier
    rcases List.mem_cons.mp seen with rfl | seen
    · exact .inr (by simp [DueEntry.before_irrefl])
    · exact .inl seen

end ScanStore

namespace MemoryStore
variable {s : MemoryStore}

def plain (s : MemoryStore) : ScanStore := ⟨s.jobs⟩

theorem Coherent.claimable_iff (h : s.Coherent) {job : Job} (member : job ∈ s.jobs)
    {now : Instant} : job.isClaimable now = true ↔ job.invisibleUntil ≤ now :=
  (h.pending job member).isClaimable_iff

theorem Coherent.first?_plain (h : s.Coherent) {job : Job} (member : job ∈ s.jobs) {now : Instant}
    (due : job.invisibleUntil ≤ now)
    (least : ∀ other ∈ s.jobs, ¬DueEntry.before (key other) (key job) = true) :
    s.plain.first? now = some job := by
  cases found : s.plain.first? now with
  | none =>
    exact absurd ((h.claimable_iff member).mpr due)
      (ScanStore.first?_eq_none_iff.mp found job member)
  | some other =>
    obtain ⟨hother, -, first⟩ := ScanStore.first?_eq_some found
    have same : key other = key job := DueEntry.eq_of_not_before (least other hother)
      (first job member ((h.claimable_iff member).mpr due))
    -- One time and one identifier: identifiers tell the jobs of a coherent store apart.
    rw [h.eq_of_id hother member (congrArg Prod.snd same)]

theorem Coherent.plain_replace (h : s.Coherent) {old : Job} (member : old ∈ s.jobs)
    {f : Job → Job} (same : (f old).id = old.id) :
    s.plain.modify old.id f = (s.replace old (f old)).plain := by
  simp only [plain, ScanStore.modify, MemoryStore.replace, update, requeue, same]
  congr 1
  refine List.map_congr_left fun j hj => ?_
  split
  next eq => rw [h.eq_of_id hj member eq]
  next => rfl

theorem holds_plain (worker : WorkerId) (id : Uuid) :
    s.plain.holds worker id = (s.held? worker id).isSome := by
  rw [ScanStore.holds, held?, Option.isSome_filter]
  rfl

theorem Coherent.apply_plain (h : s.Coherent) (r : Store.Request) :
    s.plain.apply r = ((s.apply r).1, (s.apply r).2.plain) := by
  cases r with
  | schedule id payload due => rfl
  | claim worker now until_ =>
    rw [MemoryStore.apply, ScanStore.apply]
    rcases h.claim_cases worker now until_ with ⟨eq, later⟩ | ⟨job, member, due, least, eq⟩
    · have none_ : s.plain.first? now = none := by
        refine ScanStore.first?_eq_none_iff.mpr fun job hj claimable => ?_
        exact Int.not_lt.mpr ((h.claimable_iff hj).mp claimable) (later job hj)
      rw [none_, eq]
    · rw [h.first?_plain member due least, eq]
      exact congrArg _ (h.plain_replace (f := fun _ => job.leased worker until_) member rfl)
  | keep worker job until_ =>
    rw [MemoryStore.apply, ScanStore.apply, holds_plain, keep]
    rcases h.held?_cases worker job.id with ⟨held, -⟩ | ⟨job', member, same, -, held⟩
    · rw [held]; rfl
    · rw [held, ← same]
      exact congrArg _ (h.plain_replace (f := (·.renewed until_)) member rfl)
  | complete worker job _ | forget worker job _ =>
    rw [MemoryStore.apply, ScanStore.apply, holds_plain, remove]
    rcases h.held?_cases worker job.id with ⟨held, -⟩ | ⟨job', member, same, -, held⟩ <;>
    · rw [held]; rfl
  | retry worker job due =>
    rw [MemoryStore.apply, ScanStore.apply, holds_plain, retry]
    rcases h.held?_cases worker job.id with ⟨held, -⟩ | ⟨job', member, same, -, held⟩
    · rw [held]; rfl
    · rw [held, ← same]
      exact congrArg _ (h.plain_replace (f := (·.released due)) member rfl)
  | prune _ => rfl

theorem Coherent.reply_plain (h : s.Coherent) (c : Store.Call) :
    s.plain.reply c = ((s.reply c).1, (s.reply c).2.plain) := by
  cases c with
  | request r => rw [ScanStore.reply, MemoryStore.reply, h.apply_plain r]
  | get id => rfl
  | size => rfl

theorem Coherent.replies_plain (h : s.Coherent) {calls : List Store.Call}
    (fresh : s.DrawsFresh (Store.requests calls)) :
    (Store.replies reply s calls).2.Coherent ∧
      Store.replies ScanStore.reply s.plain calls =
        ((Store.replies reply s calls).1, (Store.replies reply s calls).2.plain) := by
  induction calls generalizing s with
  | nil => exact ⟨h, rfl⟩
  | cons c rest ih =>
    have next : (s.reply c).2.Coherent ∧ (s.reply c).2.DrawsFresh (Store.requests rest) := by
      cases c with
      | request r => exact ⟨h.apply fresh.1, fresh.2⟩
      | get id => exact ⟨h, fresh⟩
      | size => exact ⟨h, fresh⟩
    obtain ⟨coherent, same⟩ := ih next.1 next.2
    refine ⟨coherent, ?_⟩
    rw [Store.replies, h.reply_plain c]
    simp only [same, Store.replies]

/-- For any calls on an empty store that draw fresh identifiers, the indexed store replies as the
plain one; afterwards its index lists exactly the due times of its jobs, every job is ready and
free or claimed and owned, and a claim finds nothing just when no job is due. -/
theorem replies_eq_plain_replies (calls : List Store.Call)
    (fresh : MemoryStore.DrawsFresh {} (Store.requests calls)) :
    let s := (Store.replies reply {} calls).2
    (Store.replies reply {} calls).1 = (Store.replies ScanStore.reply {} calls).1 ∧
      s.queue.Nodup ∧
      (∀ e, e ∈ s.queue ↔ ∃ job ∈ s.jobs, (job.invisibleUntil, job.id) = e) ∧
      (∀ job ∈ s.jobs, (job.status = .ready ∧ job.claimedBy = none) ∨
        (job.status = .claimed ∧ ∃ worker, job.claimedBy = some worker)) ∧
      ∀ worker now until_, (s.claim worker now until_).1 = none ↔
        ∀ job ∈ s.jobs, ¬job.invisibleUntil ≤ now := by
  intro s
  obtain ⟨coherent, same⟩ := coherent_empty.replies_plain fresh
  refine ⟨(congrArg Prod.fst same).symm, coherent.ordered.nodup, coherent.indexed,
    coherent.pending, fun worker now until_ => ?_⟩
  rcases coherent.claim_cases worker now until_ with ⟨eq, later⟩ | ⟨job, member, due, -, eq⟩
  · exact iff_of_true (congrArg Prod.fst eq) fun job hj => Int.not_le.mpr (later job hj)
  · exact iff_of_false (by rw [eq]; exact Option.some_ne_none _) fun later => later job member due

def contestedCalls : List Store.Call :=
  let mail : Payload := ⟨"mail", .null⟩
  let worker (n : Nat) : WorkerId := ⟨.ofNat n⟩
  let job (n : Nat) : Job := .new (.ofNat n) mail .epoch
  [.request (.schedule (.ofNat 2) mail .epoch), .request (.schedule (.ofNat 1) mail .epoch),
    .request (.claim (worker 7) .epoch .earliest), .request (.claim (worker 8) .epoch .latest),
    .request (.complete (worker 7) (job 1) .epoch), .get (.ofNat 1),
    .request (.keep (worker 8) (job 1) .earliest), .request (.claim (worker 7) .epoch .epoch),
    .request (.retry (worker 8) (job 1) .epoch), .request (.forget (worker 7) (job 1) .epoch),
    .request (.schedule (.ofNat 1) mail .latest), .size]

theorem replies_contested :
    MemoryStore.DrawsFresh {} (Store.requests contestedCalls) ∧
      (Store.replies reply {} contestedCalls).1 =
        (Store.replies ScanStore.reply {} contestedCalls).1 :=
  have fresh : MemoryStore.DrawsFresh {} (Store.requests contestedCalls) := by decide
  ⟨fresh, (replies_eq_plain_replies contestedCalls fresh).1⟩

end MemoryStore
end DelayedJobs
