import DelayedJobs.Proofs.Store.History

/-!
Leases over whole histories of one store. A claim never brings a job before the instant that the
last effect on the job fixed, so a lease that was granted and not released hides its job until it
ends. Renewing, completing, retrying and giving up have an effect just for the worker whose claim
came last, whatever the rest of the job says that is passed.
-/

namespace DelayedJobs

namespace Store.Request

def refusal : Request → Answer
  | keep _ _ _ => .kept false
  | _ => .done

def outcome : Request → Job → Option Job
  | keep _ _ until_, job => some { job with invisibleUntil := until_ }
  | retry _ _ due, job =>
    some { job with status := .ready, claimedBy := none, invisibleUntil := due }
  | _, _ => none

/-- A request that leaves alone a job leased to `lessee` until `end_`: a claim made before the end,
or a call by someone else or for another job. -/
def Spares (id : Uuid) (lessee : WorkerId) (end_ : Instant) : Request → Prop
  | claim _ now _ => now < end_
  | keep worker job _ | complete worker job _ | retry worker job _ | forget worker job _ =>
    worker = lessee → job.id ≠ id
  | schedule _ _ _ | prune _ => True

theorem spares_of_caller {r : Request} {worker lessee : WorkerId} {job id : Uuid}
    {end_ : Instant} (caller : r.caller? = some (worker, job)) (ne : lessee ≠ worker) :
    r.Spares id lessee end_ := by
  cases r with
  | schedule | claim | prune => cases caller
  | keep | complete | retry | forget =>
    cases caller
    exact fun same => absurd same.symm ne

end Store.Request

namespace MemoryStore
open Store (Effect Entry Log Request)
variable {s : MemoryStore}

theorem Coherent.effect_ne_of_spares (h : s.Coherent) {job : Job} {lessee : WorkerId}
    (member : job ∈ s.jobs) (owner : job.claimedBy = some lessee) {r : Request} {e : Entry}
    {after : MemoryStore} (does : s.Does r e after)
    (spares : r.Spares job.id lessee job.invisibleUntil) : e.job ≠ job.id := by
  have holder {held passed : Job} {worker : WorkerId} (hheld : held ∈ s.jobs)
      (holds : held.claimedBy = some worker) (same : held.id = passed.id)
      (elsewhere : worker = lessee → passed.id ≠ job.id) : held.id ≠ job.id := by
    intro eq
    rw [h.eq_of_id hheld member eq, owner] at holds
    exact elsewhere (Option.some.inj holds).symm (same.symm.trans eq)
  cases does with
  | schedule payload due fresh => exact (get?_eq_none_iff.mp fresh job member).symm
  | claim hfirst worker due until_ =>
    intro eq
    rw [h.eq_of_id hfirst member eq] at due
    exact Int.not_le.mpr spares due
  | keep hheld holds same | complete hheld holds same | retry hheld holds same
  | forget hheld holds same => exact holder hheld holds same spares

theorem Coherent.get?_of_spares (h : s.Coherent) {id : Uuid} {job : Job} {lessee : WorkerId}
    (found : s.get? id = some job) (owner : job.claimedBy = some lessee) {r : Request}
    (fresh : s.Fresh r) (spares : r.Spares id lessee job.invisibleUntil) :
    (s.apply r).2.get? id = some job ∧ ∀ e ∈ s.effect? r, e.job ≠ id := by
  obtain ⟨member, rfl⟩ := h.get?_eq_some_iff.mp found
  obtain idle | ⟨e, effect, does⟩ := h.apply_cases fresh
  · rw [idle.state, idle.effect]
    exact ⟨found, by simp⟩
  · have ne := h.effect_ne_of_spares member owner does spares
    rw [effect, h.get?_of_ne does ne.symm]
    refine ⟨found, ?_⟩
    rintro _ ⟨⟩
    exact ne

theorem Coherent.log_of_spares (h : s.Coherent) {id : Uuid} {job : Job} {lessee : WorkerId}
    (found : s.get? id = some job) (owner : job.claimedBy = some lessee)
    {requests : List Request} (fresh : s.DrawsFresh requests)
    (spares : ∀ r ∈ requests, r.Spares id lessee job.invisibleUntil) :
    ∀ e ∈ s.log requests, e.job ≠ id := by
  induction requests generalizing s with
  | nil => simp [log]
  | cons r rest ih =>
    -- The leased job stays the very same, so what spares its lease now does so later.
    obtain ⟨still, first⟩ := h.get?_of_spares found owner fresh.1 (spares r List.mem_cons_self)
    have later := ih (h.apply fresh.1) still fresh.2 fun r hr =>
        spares r (List.mem_cons_of_mem _ hr)
    intro e he
    rw [log, List.mem_append, Option.mem_toList] at he
    exact he.elim (later e) (first e)

theorem fresh_of_caller {r : Request} {worker : WorkerId} {id : Uuid}
    (caller : r.caller? = some (worker, id)) : s.Fresh r := by
  cases r <;> simp_all [Request.caller?, Request.drawn?, Fresh]

theorem Coherent.outcome_of_does (h : s.Coherent) {r : Request} {worker : WorkerId} {id : Uuid}
    (caller : r.caller? = some (worker, id)) {e : Entry} {after : MemoryStore}
    (does : s.Does r e after) :
    e.job = id ∧ ∃ held, s.get? id = some held ∧ held.claimedBy = some worker ∧
      after.get? id = r.outcome held := by
  have found {held : Job} (member : held ∈ s.jobs) : s.get? held.id = some held :=
    h.get?_eq_some_iff.mpr ⟨member, rfl⟩
  cases does with
  | schedule | claim => cases caller
  | keep member owner same until_ =>
    cases caller
    rw [← same, h.get?_replace member (Job.id_renewed _ until_), if_pos rfl]
    exact ⟨rfl, _, found member, owner, rfl⟩
  | complete member owner same | forget member owner same =>
    cases caller
    rw [← same, get?_discard, if_pos rfl]
    exact ⟨rfl, _, found member, owner, rfl⟩
  | retry member owner same due =>
    cases caller
    rw [← same, h.get?_replace member (Job.id_released _ due), if_pos rfl]
    exact ⟨rfl, _, found member, owner, rfl⟩

theorem Coherent.apply_of_caller (h : s.Coherent) {r : Request} {worker : WorkerId} {id : Uuid}
    (caller : r.caller? = some (worker, id)) :
    (s.owner? id = some worker ∧ (s.effect? r).isSome = true ∧ ∃ held, s.get? id = some held ∧
        ∀ i, (s.apply r).2.get? i = if i = id then r.outcome held else s.get? i) ∨
      (s.owner? id ≠ some worker ∧ (s.effect? r).isSome = false ∧
        s.apply r = (r.refusal, s)) := by
  obtain idle | ⟨e, effect, does⟩ := h.apply_cases (fresh_of_caller caller)
  · refine .inr ⟨idle.owner worker id caller, by rw [idle.effect]; rfl, ?_⟩
    refine Prod.ext ?_ idle.state
    cases r with
    | schedule | claim | prune => cases caller
    | keep holder job until_ =>
      have denied : (s.keep holder job.id until_).1 = false := by simpa [effect?] using idle.effect
      exact congrArg Store.Answer.kept denied
    | complete | retry | forget => rfl
  · obtain ⟨rfl, held, found, owner, outcome⟩ := h.outcome_of_does caller does
    refine .inl ⟨by rw [owner?, found, Option.bind_some, owner],
      by rw [effect]; rfl, held, found, ?_⟩
    intro i
    split
    next eq => rw [eq, outcome]
    next ne => exact h.get?_of_ne does ne

theorem apply_congr_id {call : WorkerId → Job → Instant → Request}
    (hcall : call ∈ [Request.keep, Request.complete, Request.retry, Request.forget])
    (worker : WorkerId) {job snapshot : Job} (same : snapshot.id = job.id) (time : Instant) :
    s.apply (call worker snapshot time) = s.apply (call worker job time) := by
  simp only [List.mem_cons, List.not_mem_nil, or_false] at hcall
  obtain rfl | rfl | rfl | rfl := hcall <;> simp only [apply, same]

theorem Coherent.of_claim (h : s.Coherent) {worker : WorkerId} {now until_ : Instant} {job : Job}
    (claimed : (s.claim worker now until_).1 = some job) :
    ∃ before, s.get? job.id = some before ∧ before.invisibleUntil ≤ now ∧
      job = before.leased worker until_ := by
  obtain ⟨eq, -⟩ | ⟨before, member, due, -, eq⟩ := h.claim_cases worker now until_
  · rw [eq] at claimed
    cases claimed
  · rw [eq] at claimed
    obtain rfl := Option.some.inj claimed
    exact ⟨before, h.get?_eq_some_iff.mpr ⟨member, rfl⟩, due, rfl⟩

theorem Agrees.visible_of_lease {log : Log} (h : Agrees log s) {id : Uuid} {effect : Effect}
    {end_ : Instant} (last : log.last? id = some effect) (lease : effect.leaseEnd? = some end_) :
    ∃ job, s.get? id = some job ∧ job.invisibleUntil = end_ := by
  have visible : log.visibleFrom? id = some end_ := by
    rw [Log.visibleFrom?, last, Option.bind_some]
    cases effect <;> first | exact lease | cases lease
  rw [h.visible] at visible
  exact Option.map_eq_some_iff.mp visible

/-- After any history a claim brings only a job that was scheduled and not finished since, and not
before the instant fixed by the last effect on it. Hence no claim made before the end of a lease
brings the leased job, and requests that spare the lease have no effect on it in any number. -/
theorem claim_waits_for_visibility (history : List Request)
    (fresh : MemoryStore.DrawsFresh {} history) :
    let s := (run {} history).2
    let log := log {} history
    (∀ worker now until_ job, (s.claim worker now until_).1 = some job →
      log.Unfinished job.id ∧ ∃ visible, log.visibleFrom? job.id = some visible ∧ visible ≤ now) ∧
    ∀ id effect end_, log.last? id = some effect → effect.leaseEnd? = some end_ →
      (∀ worker now until_ job, now < end_ → (s.claim worker now until_).1 = some job →
        job.id ≠ id) ∧
      ∀ lessee, log.holder? id = some lessee → ∀ between, s.DrawsFresh between →
        (∀ r ∈ between, r.Spares id lessee end_) → ∀ e ∈ s.log between, e.job ≠ id := by
  intro s log
  have coherent : s.Coherent := coherent_empty.run fresh
  have agrees : Agrees log s := by
    simpa only [List.append_nil] using agrees_empty.run coherent_empty fresh
  refine ⟨?_, fun id effect end_ last lease => ?_⟩
  · intro worker now until_ job claimed
    obtain ⟨before, found, due, -⟩ := coherent.of_claim claimed
    refine ⟨agrees.unfinished job.id (by simp [found]), before.invisibleUntil, ?_, due⟩
    rw [agrees.visible, found, Option.map_some]
  · obtain ⟨leased, found, rfl⟩ := agrees.visible_of_lease last lease
    constructor
    · rintro worker now until_ job early claimed rfl
      obtain ⟨before, found', due, -⟩ := coherent.of_claim claimed
      rw [found] at found'
      exact Int.not_le.mpr early (Option.some.inj found' ▸ due)
    · intro lessee holder between drawn spares
      have owner : leased.claimedBy = some lessee := by
        rw [← holder, agrees.holder, owner?, found, Option.bind_some]
      exact coherent.log_of_spares found owner drawn spares

def takeover : List Request :=
  [.schedule (.ofNat 1) ⟨"mail", .null⟩ .epoch, .claim ⟨.ofNat 7⟩ .epoch .earliest,
    .claim ⟨.ofNat 8⟩ .epoch .latest]

theorem no_claim_after_takeover :
    MemoryStore.DrawsFresh {} takeover ∧
      (log {} takeover).last? (.ofNat 1) = some (.claimed ⟨.ofNat 8⟩ .latest) ∧
      ∀ worker until_ job, ((run {} takeover).2.claim worker .epoch until_).1 = some job →
        job.id ≠ .ofNat 1 :=
  have fresh : MemoryStore.DrawsFresh {} takeover := by decide
  have last : (log {} takeover).last? (.ofNat 1) = some (.claimed ⟨.ofNat 8⟩ .latest) := by decide
  ⟨fresh, last, fun worker until_ job =>
    ((claim_waits_for_visibility takeover fresh).2 (.ofNat 1) _ .latest last rfl).1
      worker .epoch until_ job (by decide)⟩

/-- After any history a call that is up to the holder of a job has an effect just when the last
claim, completion, retry or giving up of that job was a claim by the caller, expired or not. Then it
does to the job what it says; else it is refused and the store stays as it is. Of the job that is
passed only the identifier counts. -/
theorem effect_iff_last_claimant (history : List Request)
    (fresh : MemoryStore.DrawsFresh {} history) :
    let s := (run {} history).2
    let log := log {} history
    ∀ call ∈ [Request.keep, Request.complete, Request.retry, Request.forget],
      ∀ (worker : WorkerId) (job : Job) (time : Instant),
        let r := call worker job time
        ((s.effect? r).isSome = true ↔ log.holder? job.id = some worker) ∧
        (log.holder? job.id = some worker → ∃ held, s.get? job.id = some held ∧
          ∀ id, (s.apply r).2.get? id = if id = job.id then r.outcome held else s.get? id) ∧
        (log.holder? job.id ≠ some worker → s.apply r = (r.refusal, s)) ∧
        ∀ snapshot : Job, snapshot.id = job.id →
          s.apply (call worker snapshot time) = s.apply r := by
  intro s log call hcall worker job time r
  have coherent : s.Coherent := coherent_empty.run fresh
  have agrees : Agrees log s := by
    simpa only [List.append_nil] using agrees_empty.run coherent_empty fresh
  have caller : r.caller? = some (worker, job.id) := by
    simp only [List.mem_cons, List.not_mem_nil, or_false] at hcall
    obtain rfl | rfl | rfl | rfl := hcall <;> rfl
  rw [agrees.holder]
  refine and_assoc.mp (and_assoc.mp ⟨?_,
    fun snapshot same => apply_congr_id hcall worker same time⟩)
  obtain ⟨owner, effect, done⟩ | ⟨other, effect, refused⟩ := coherent.apply_of_caller caller
  · exact ⟨⟨iff_of_true effect owner, fun _ => done⟩, fun other => absurd owner other⟩
  · exact ⟨⟨iff_of_false (by simp [effect]) other, fun owner => absurd owner other⟩,
      fun _ => refused⟩

theorem former_owner_is_refused :
    MemoryStore.DrawsFresh {} takeover ∧
      Request.retry ∈ [Request.keep, Request.complete, Request.retry, Request.forget] ∧
      (log {} takeover).holder? (.ofNat 1) = some ⟨.ofNat 8⟩ ∧
      let stale : Request := .retry ⟨.ofNat 7⟩ (.new (.ofNat 1) ⟨"mail", .null⟩ .epoch) .epoch
      (run {} takeover).2.apply stale = (.done, (run {} takeover).2) :=
  have fresh : MemoryStore.DrawsFresh {} takeover := by decide
  have call : Request.retry ∈ [Request.keep, Request.complete, Request.retry, Request.forget] := by
    simp
  have holder : (log {} takeover).holder? (.ofNat 1) = some ⟨.ofNat 8⟩ := by decide
  ⟨fresh, call, holder, (effect_iff_last_claimant takeover fresh .retry call ⟨.ofNat 7⟩
    (.new (.ofNat 1) ⟨"mail", .null⟩ .epoch) .epoch).2.2.1 (by decide)⟩

end MemoryStore
end DelayedJobs
