import DelayedJobs.Proofs.Table.Database
import DelayedJobs.Proofs.Table.Simulation
import Mathlib.Data.List.Infix

/-!
A store over a table answers as the store in memory does, call for call. Of two jobs that are due
at one instant the stores may take different ones, so they are compared over calls in which no
claim finds such a tie, and in which no job is claimed so often that its attempts do not fit the
column for them.
-/

namespace DelayedJobs
open Store (Request)

namespace Store

def Request.times : Request → List Instant
  | schedule _ _ due => [due]
  | claim _ now until_ => [now, until_]
  | keep _ _ t | complete _ _ t | retry _ _ t | forget _ _ t => [t]
  | prune cutoff => [cutoff]

def Answer.withoutMore : Answer → Answer
  | pruned _ => pruned false
  | answer => answer

theorem Request.params_onWire {r : Request} (whole : ∀ t ∈ r.times, t.wholeMicros = t)
    (batch : Nat) : (r.params batch).map SqlValue.onWire = r.params batch := by
  cases r <;> simp_all [times, params, SqlValue.onWire]

theorem Request.rewrite_onWire {r : Request} (whole : ∀ t ∈ r.times, t.wholeMicros = t)
    {row : JobRow} (same : row.onWire = row) : (r.rewrite row).onWire = r.rewrite row := by
  have scheduled : row.scheduledFor.wholeMicros = row.scheduledFor :=
    congrArg JobRow.scheduledFor same
  cases r <;> simp_all [times, rewrite, JobRow.onWire]

end Store

namespace MemoryStore
variable {s : MemoryStore}

/-- A claim finds no two claimable jobs that are due at one instant. -/
def Untied (s : MemoryStore) : Request → Prop
  | .claim _ now _ => ((s.jobs.filter (·.isClaimable now)).map Job.invisibleUntil).Nodup
  | _ => True

instance : (r : Request) → Decidable (s.Untied r)
  | .claim _ now _ =>
    inferInstanceAs (Decidable ((s.jobs.filter (·.isClaimable now)).map Job.invisibleUntil).Nodup)
  | .schedule .. | .keep .. | .complete .. | .retry .. | .forget .. | .prune _ => isTrue trivial

def NeverTied (s : MemoryStore) : List Request → Prop
  | [] => True
  | r :: rest => s.Untied r ∧ NeverTied (s.apply r).2 rest

instance decidableNeverTied (s : MemoryStore) : (requests : List Request) →
    Decidable (s.NeverTied requests)
  | [] => isTrue trivial
  | r :: rest =>
    have := decidableNeverTied (s.apply r).2 rest
    inferInstanceAs (Decidable (s.Untied r ∧ NeverTied (s.apply r).2 rest))

def AttemptsFit (s : MemoryStore) (requests : List Request) : Prop :=
  ∀ before ∈ requests.inits, ∀ job ∈ (s.run before).2.jobs, job.attempt.toNat < Word.count31

theorem AttemptsFit.first {requests : List Request} (h : s.AttemptsFit requests) :
    ∀ job ∈ s.jobs, job.attempt.toNat < Word.count31 :=
  h [] ((List.mem_inits _ _).mpr List.nil_prefix)

theorem AttemptsFit.rest {r : Request} {rest : List Request} (h : s.AttemptsFit (r :: rest)) :
    (s.apply r).2.AttemptsFit rest := by
  intro before early
  refine h (r :: before) ?_
  rw [List.mem_inits] at early ⊢
  exact List.cons_prefix_cons.mpr ⟨rfl, early⟩

end MemoryStore

namespace Simulates
variable {rows : List JobRow} {s : MemoryStore} {order : RowOrder} {batch : Nat}

/-- The statement of a request leads from the rows to others, as the request does in memory, with
the same answer. -/
structure Follows (order : RowOrder) (batch : Nat) (rows : List JobRow) (s : MemoryStore)
    (r : Request) (answer : RowsAnswer) (after : List JobRow) : Prop where
  runs : r.query.run? order (r.params batch) rows = some (answer, after)
  answers : (r.answer batch answer.affected (answer.returned.map JobRow.onWire)).withoutMore =
    (s.apply r).1
  simulates : Simulates after (s.apply r).2
  ids : (after.map JobRow.jobId).Sublist (rows.map JobRow.jobId ++ r.drawn?.toList)

theorem follows_unowned (h : Simulates rows s) {r : Request} {worker : WorkerId} {id : Uuid}
    (caller : r.caller? = some (worker, id)) (other : s.owner? id ≠ some worker)
    (state : s.apply r = ((r.answer batch 0 []).withoutMore, s)) :
    Follows order batch rows s r ⟨0, []⟩ rows where
  runs := by
    refine Query.run?_held_none caller batch fun row hrow => Bool.eq_false_iff.mpr fun held => ?_
    obtain ⟨job, hj, rfl⟩ := h.exists_job hrow (JobRow.isPending_of_isHeld held)
    obtain ⟨rfl, owner⟩ := (JobRow.isHeld_ofJob (h.coherent.pending job hj)).mp held
    have found : s.get? job.id = some job := h.coherent.get?_eq_some_iff.mpr ⟨hj, rfl⟩
    exact other (by rw [MemoryStore.owner?, found, Option.bind_some, owner])
  answers := by rw [state]; rfl
  simulates := by rwa [state]
  ids := List.sublist_append_left _ _

theorem follows_owned (h : Simulates rows s) {r : Request} {worker : WorkerId} {id : Uuid}
    (caller : r.caller? = some (worker, id)) {held : Job} (member : held ∈ s.jobs)
    (same : held.id = id) (owner : held.claimedBy = some worker)
    (answers : (s.apply r).1 = (r.answer batch 1 []).withoutMore)
    (simulates : Simulates (JobRow.put (r.rewrite (.ofJob held)) rows) (s.apply r).2) :
    Follows order batch rows s r ⟨1, []⟩ (JobRow.put (r.rewrite (.ofJob held)) rows) where
  runs := by
    refine Query.run?_held_one caller batch h.distinct (h.ofJob_mem member) fun row hrow => ?_
    constructor
    · intro mine
      obtain ⟨job, hj, rfl⟩ := h.exists_job hrow (JobRow.isPending_of_isHeld mine)
      have known := (JobRow.isHeld_ofJob (h.coherent.pending job hj)).mp mine
      rw [h.coherent.eq_of_id hj member (known.1.trans same.symm)]
    · rintro rfl
      exact (JobRow.isHeld_ofJob (h.coherent.pending held member)).mpr ⟨same, owner⟩
  answers := answers.symm
  simulates := simulates
  ids := by
    rw [JobRow.ids_put]
    exact List.sublist_append_left _ _

theorem rewrite_claim {job : Job} (fits : job.attempt.toNat < Word.count31) (worker : WorkerId)
    (now until_ : Instant) : (Request.claim worker now until_).rewrite (.ofJob job) =
      .ofJob (job.leased worker until_) := by
  have below : job.attempt.toNat + 1 < Word.count32 := Nat.lt_of_le_of_lt fits (by decide)
  rw [JobRow.ofJob, JobRow.ofJob, job.attempt_leased below]
  rfl

theorem follows_claim (h : Simulates rows s) {worker : WorkerId} {now until_ : Instant}
    (untied : s.Untied (.claim worker now until_))
    (fits : ∀ job ∈ s.jobs, job.attempt.toNat < Word.count31)
    (whole : ∀ t ∈ (Request.claim worker now until_).times, t.wholeMicros = t) :
    ∃ answer after, Follows order batch rows s (.claim worker now until_) answer after := by
  obtain ⟨eq, later⟩ | ⟨job, member, due, least, eq⟩ := h.coherent.claim_cases worker now until_
  · have nothing : ∀ row ∈ rows, row.isDue now = false := by
      refine fun row hrow => Bool.eq_false_iff.mpr fun due => ?_
      obtain ⟨job, hj, rfl⟩ := h.exists_job hrow (Bool.and_eq_true_iff.mp due).1
      exact Int.not_le.mpr (later job hj) ((JobRow.isDue_ofJob (h.coherent.pending job hj)).mp due)
    refine ⟨_, _, Query.run?_claim_none batch h.distinct nothing, ?_, ?_,
      List.sublist_append_left _ _⟩
    · rw [MemoryStore.apply, eq]
      rfl
    · rwa [MemoryStore.apply, eq]
  · have claimable {j : Job} (hj : j ∈ s.jobs) (hdue : j.invisibleUntil ≤ now) :
        j ∈ s.jobs.filter (·.isClaimable now) :=
      List.mem_filter.mpr ⟨hj, (h.coherent.pending j hj).isClaimable_iff.mpr hdue⟩
    have first : ∀ row ∈ rows, row.isDue now = true → row.invisibleUntil ≤ job.invisibleUntil →
        row = .ofJob job := by
      intro row hrow hdue before
      obtain ⟨j, hj, rfl⟩ := h.exists_job hrow (Bool.and_eq_true_iff.mp hdue).1
      have jdue := (JobRow.isDue_ofJob (h.coherent.pending j hj)).mp hdue
      have after : job.invisibleUntil ≤ j.invisibleUntil :=
        DueEntry.time_le_of_not_before (least j hj)
      have tied : j.invisibleUntil = job.invisibleUntil :=
        Instant.ext (Int.le_antisymm before after)
      rw [List.inj_on_of_nodup_map untied (claimable hj jdue) (claimable member due) tied]
    have rewritten := rewrite_claim (fits job member) worker now until_
    have leased : (JobRow.ofJob (job.leased worker until_)).onWire =
        .ofJob (job.leased worker until_) := by
      rw [← rewritten]
      exact Request.rewrite_onWire whole (h.whole _ (h.ofJob_mem member))
    refine ⟨⟨1, [.ofJob (job.leased worker until_)]⟩,
      JobRow.put (.ofJob (job.leased worker until_)) rows, ?_, ?_, ?_, ?_⟩
    · rw [← rewritten]
      exact Query.run?_claim_one batch h.distinct (h.ofJob_mem member)
        ((JobRow.isDue_ofJob (h.coherent.pending job member)).mpr due) first
    · rw [MemoryStore.apply, eq, List.map_singleton, leased]
      exact congrArg (Store.Answer.claimed ∘ some) (JobRow.toJob_ofJob _)
    · rw [MemoryStore.apply, eq]
      exact h.replace member (job.id_leased worker until_) (job.pending_leased worker until_) leased
    · rw [JobRow.ids_put]
      exact List.sublist_append_left _ _

theorem follows (h : Simulates rows s) (order : RowOrder) (batch : Nat) {r : Request}
    (unused : ∀ id ∈ r.drawn?, ∀ row ∈ rows, row.jobId ≠ id) (untied : s.Untied r)
    (fits : ∀ job ∈ s.jobs, job.attempt.toNat < Word.count31)
    (whole : ∀ t ∈ r.times, t.wholeMicros = t) :
    ∃ answer after, Follows order batch rows s r answer after := by
  have rewritten {job : Job} (hj : job ∈ s.jobs) :
      (r.rewrite (.ofJob job)).onWire = r.rewrite (.ofJob job) :=
    r.rewrite_onWire whole (h.whole _ (h.ofJob_mem hj))
  cases r with
  | schedule id payload due =>
    have new := unused id rfl
    refine ⟨_, _, Query.run?_insert payload due batch new, rfl, ?_, ?_⟩
    · exact h.schedule payload new (whole due List.mem_cons_self)
    · rw [List.map_append]
      rfl
  | claim worker now until_ => exact h.follows_claim untied fits whole
  | keep worker job until_ =>
    obtain ⟨eq, other⟩ | ⟨held, member, same, owner, eq⟩ :=
      h.coherent.keep_cases worker job.id until_
    · exact ⟨_, _, h.follows_unowned rfl other (by rw [MemoryStore.apply, eq]; rfl)⟩
    · refine ⟨_, _, h.follows_owned rfl member same owner (by rw [MemoryStore.apply, eq]; rfl) ?_⟩
      rw [MemoryStore.apply, eq]
      exact h.replace member (held.id_renewed until_)
        ((h.coherent.pending held member).renewed until_) (rewritten member)
  | complete worker job now | forget worker job now =>
    obtain ⟨eq, other⟩ | ⟨held, member, same, owner, eq⟩ := h.coherent.remove_cases worker job.id
    · exact ⟨_, _, h.follows_unowned rfl other (by rw [MemoryStore.apply, eq]; rfl)⟩
    · refine ⟨_, _, h.follows_owned rfl member same owner rfl ?_⟩
      rw [MemoryStore.apply, eq]
      exact h.discard member rfl rfl (rewritten member)
  | retry worker job due =>
    obtain ⟨eq, other⟩ | ⟨held, member, same, owner, eq⟩ := h.coherent.retry_cases worker job.id due
    · exact ⟨_, _, h.follows_unowned rfl other (by rw [MemoryStore.apply, eq]; rfl)⟩
    · refine ⟨_, _, h.follows_owned rfl member same owner rfl ?_⟩
      rw [MemoryStore.apply, eq]
      exact h.replace member (held.id_released due) (held.pending_released due) (rewritten member)
  | prune cutoff =>
    obtain ⟨affected, gone, runs, finished⟩ := Query.run?_prune cutoff batch h.distinct
    refine ⟨_, _, runs, rfl, h.prune fun row hrow gone => (finished row hrow gone).1, ?_⟩
    exact (List.filter_sublist.map JobRow.jobId).trans (List.sublist_append_left _ _)

end Simulates

namespace TableStore
variable {t : TableStore} {s : MemoryStore}

theorem call_follows (notInstalling : t.session.gate ≠ .installing)
    (opened : t.session.closed = false) {order : RowOrder} {r : Request} {answer : RowsAnswer}
    {after : List JobRow}
    (follows : Simulates.Follows order t.session.settings.pruneBatch.toNat t.rows s r answer after)
    (whole : ∀ time ∈ r.times, time.wholeMicros = time) :
    (t.call (order, r)).1.map Store.Answer.withoutMore = .ok (s.apply r).1 ∧
      (t.call (order, r)).2 =
        { session := { t.session with gate := .installed }, rows := after } := by
  have sent : ((Statement.request r).params t.session.settings).map SqlValue.onWire =
      r.params t.session.settings.pruneBatch.toNat := Request.params_onWire whole _
  rw [call_eq notInstalling opened (sent ▸ follows.runs), ← follows.answers]
  exact ⟨rfl, rfl⟩

theorem run_simulates (notInstalling : t.session.gate ≠ .installing)
    (opened : t.session.closed = false) (h : Simulates t.rows s) {calls : List Call}
    (whole : ∀ c ∈ calls, ∀ time ∈ c.2.times, time.wholeMicros = time)
    (unused : (t.rows.map JobRow.jobId ++
      (calls.map Prod.snd).filterMap Request.drawn?).Nodup)
    (untied : s.NeverTied (calls.map Prod.snd)) (fits : s.AttemptsFit (calls.map Prod.snd)) :
    (t.run calls).1.map (Except.map Store.Answer.withoutMore) =
        (s.run (calls.map Prod.snd)).1.map .ok ∧
      Simulates (t.run calls).2.rows (s.run (calls.map Prod.snd)).2 := by
  induction calls generalizing t s with
  | nil => exact ⟨rfl, h⟩
  | cons c rest ih =>
    obtain ⟨order, r⟩ := c
    obtain ⟨first, later⟩ := List.forall_mem_cons.mp whole
    have drawn : ((order, r) :: rest |>.map Prod.snd).filterMap Request.drawn? =
        r.drawn?.toList ++ (rest.map Prod.snd).filterMap Request.drawn? := by
      rw [List.map_cons, List.filterMap_cons]
      cases r.drawn? <;> rfl
    rw [drawn, ← List.append_assoc] at unused
    have new : ∀ id ∈ r.drawn?, ∀ row ∈ t.rows, row.jobId ≠ id := by
      intro id draws row hrow
      have apart := (List.nodup_append.mp (List.nodup_append.mp unused).1).2.2
      exact apart row.jobId (List.mem_map_of_mem hrow) id (Option.mem_toList.mpr draws)
    obtain ⟨answer, after, follows⟩ := h.follows order _ new untied.1 fits.first first
    obtain ⟨alike, state⟩ := call_follows notInstalling opened follows first
    have next := ih (t := (t.call (order, r)).2) (s := (s.apply r).2)
    rw [state] at next
    obtain ⟨results, simulates⟩ := next (by simp) opened follows.simulates later
      (unused.sublist (follows.ids.append_right _)) untied.2 fits.rest
    simp only [run, MemoryStore.run, List.map_cons, alike, state, results, true_and]
    exact simulates

/-- For any calls with whole microseconds that draw an identifier once each, on an empty table and
an empty memory store: if no claim finds a tie and attempts stay below 2^31, the answers are the
same, but for what a prune says about the rest. The jobs in memory are those of the rows that are
ready or claimed; every other row is completed or failed, and its job is not in memory. -/
theorem simulates_memory (settings : TableSettings) (calls : List Call)
    (whole : ∀ c ∈ calls, ∀ time ∈ c.2.times, time.wholeMicros = time)
    (unused : ((calls.map Prod.snd).filterMap Request.drawn?).Nodup)
    (untied : MemoryStore.NeverTied {} (calls.map Prod.snd))
    (fits : MemoryStore.AttemptsFit {} (calls.map Prod.snd)) :
    let table := run { session := { settings } } calls
    let memory := MemoryStore.run {} (calls.map Prod.snd)
    table.1.map (Except.map Store.Answer.withoutMore) = memory.1.map .ok ∧
      table.2.rows.filter JobRow.isPending = memory.2.jobs.map JobRow.ofJob ∧
      (∀ row ∈ table.2.rows, row.isPending = true ∨ row.isFinished = true) ∧
      ∀ row ∈ table.2.rows, row.isFinished = true → memory.2.get? row.jobId = none := by
  intro table memory
  obtain ⟨answers, simulates⟩ := run_simulates (t := { session := { settings } }) (by simp) rfl
    Simulates.empty whole unused untied fits
  exact ⟨answers, simulates.pending, simulates.kinds, fun _ => simulates.absent⟩

def takenOver : List Call :=
  let mail : Payload := ⟨"mail", .null⟩
  let worker (n : Nat) : WorkerId := ⟨.ofNat n⟩
  let job (n : Nat) : Job := .new (.ofNat n) mail .epoch
  let second (n : Int) : Instant := .nearest (n * 1000000000)
  let backwards : RowOrder := ⟨List.reverse, List.reverse_perm⟩
  [(.oldestFirst, .schedule (.ofNat 1) mail (second 0)),
    (.oldestFirst, .schedule (.ofNat 2) mail (second 3)),
    (.oldestFirst, .claim (worker 7) (second 1) (second 2)),
    (backwards, .claim (worker 8) (second 5) (second 9)),
    (backwards, .keep (worker 7) (job 1) (second 6)),
    (.oldestFirst, .complete (worker 8) (job 1) (second 6)),
    (.oldestFirst, .retry (worker 8) (job 1) (second 7)),
    (backwards, .prune (second 7)),
    (backwards, .claim (worker 7) (second 8) (second 9))]

theorem takenOver_answers :
    let settings : TableSettings := { connection := "database" }
    let mail : Payload := ⟨"mail", .null⟩
    let second (n : Int) : Instant := .nearest (n * 1000000000)
    MemoryStore.NeverTied {} (takenOver.map Prod.snd) ∧
      MemoryStore.AttemptsFit {} (takenOver.map Prod.snd) ∧
      (run { session := { settings } } takenOver).1.map (Except.map Store.Answer.withoutMore) =
        [.ok (.scheduled (.ofNat 1)), .ok (.scheduled (.ofNat 2)),
          .ok (.claimed (some ⟨.ofNat 1, mail, second 0, second 2, 1, some ⟨.ofNat 7⟩, .claimed⟩)),
          .ok (.claimed (some ⟨.ofNat 1, mail, second 0, second 9, 2, some ⟨.ofNat 8⟩, .claimed⟩)),
          .ok (.kept false), .ok .done, .ok .done, .ok (.pruned false),
          .ok (.claimed (some ⟨.ofNat 2, mail, second 3, second 9, 1, some ⟨.ofNat 7⟩,
            .claimed⟩))] := by
  intro settings mail second
  have whole : ∀ c ∈ takenOver, ∀ time ∈ c.2.times, time.wholeMicros = time := by decide
  have untied : MemoryStore.NeverTied {} (takenOver.map Prod.snd) := by decide
  have fits : MemoryStore.AttemptsFit {} (takenOver.map Prod.snd) := by
    unfold MemoryStore.AttemptsFit
    decide
  refine ⟨untied, fits, ?_⟩
  rw [(simulates_memory settings takenOver whole (by decide) untied fits).1]
  rfl

end TableStore
end DelayedJobs
