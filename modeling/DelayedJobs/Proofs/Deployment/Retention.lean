import DelayedJobs.Proofs.Deployment.Basic
import DelayedJobs.Proofs.Scheduler.Poller
import DelayedJobs.Proofs.Scheduler.Supervisor
import DelayedJobs.Proofs.Table.Simulation
import DelayedJobs.Proofs.Time.Saturation

/-!
Finished jobs stay as they are until they are pruned, and a prune takes none before the retention
has passed since it was finished. However the statements of workers and cleaners are mixed, those
that are served late included, no job that is still ready or claimed is ever deleted.
-/

namespace DelayedJobs
open Store (Request)

namespace JobRow
variable {rows : List JobRow} {row new : JobRow}

theorem mem_put_of_ne (member : row ∈ rows) (other : row.jobId ≠ new.jobId) : row ∈ put new rows :=
  List.mem_map.mpr ⟨row, member, if_neg other⟩

theorem isFinished_eq {s : JobStatus} (status : row.status = s.name) :
    row.isFinished = s.isTerminal := by
  cases s <;> simp [isFinished, status, JobStatus.name, JobStatus.isTerminal]

theorem isPending_eq {s : JobStatus} (status : row.status = s.name) :
    row.isPending = !s.isTerminal := by
  cases s <;> simp [isPending, status, JobStatus.name, JobStatus.isTerminal]

end JobRow

/-- One row for each identifier, and each of them pending or finished. -/
structure Tidy (rows : List JobRow) : Prop where
  distinct : (rows.map JobRow.jobId).Nodup
  kinds : ∀ row ∈ rows, row.isPending = true ∨ row.isFinished = true

inductive Serves (r : Request) (rows : List JobRow) : List JobRow → Prop
  | nothing : Serves r rows rows
  | adds {id payload due} (asks : r = .schedule id payload due)
      (unused : ∀ row ∈ rows, row.jobId ≠ id) :
      Serves r rows (rows ++ [.ofJob (.new id payload due)])
  | claims {worker now until_ first} (asks : r = .claim worker now until_) (member : first ∈ rows)
      (pending : first.isPending = true) : Serves r rows (JobRow.put (r.rewrite first) rows)
  | changes {worker id held} (caller : r.caller? = some (worker, id)) (member : held ∈ rows)
      (mine : held.isHeld id worker = true) : Serves r rows (JobRow.put (r.rewrite held) rows)
  | prunes {cutoff} {gone : JobRow → Bool} (asks : r = .prune cutoff)
      (old : ∀ row ∈ rows, gone row = true →
        row.isFinished = true ∧ row.invisibleUntil < cutoff) :
      Serves r rows (rows.filter fun row => !gone row)

namespace Tidy
variable {rows : List JobRow}

theorem eq_of_id (h : Tidy rows) {a b : JobRow} (ha : a ∈ rows) (hb : b ∈ rows)
    (same : a.jobId = b.jobId) : a = b :=
  List.inj_on_of_nodup_map h.distinct ha hb same

theorem serve_of_run {r : Request} {order : RowOrder} {batch : Nat} {answer : RowsAnswer}
    {after : List JobRow} (runs : r.query.run? order (r.params batch) rows = some (answer, after)) :
    (r.serve order batch rows).2 = after := by
  rw [Request.serve, runs]

theorem serves (h : Tidy rows) (r : Request) (order : RowOrder) (batch : Nat) :
    Serves r rows (r.serve order batch rows).2 := by
  have of_caller {worker : WorkerId} {id : Uuid} (caller : r.caller? = some (worker, id)) :
      Serves r rows (r.serve order batch rows).2 := by
    by_cases mine : ∃ held ∈ rows, held.isHeld id worker = true
    · obtain ⟨held, member, mine⟩ := mine
      have only : ∀ row ∈ rows, row.isHeld id worker = true ↔ row = held := by
        refine fun row hrow => ⟨fun also => h.eq_of_id hrow member ?_, fun same => same ▸ mine⟩
        simp only [JobRow.isHeld, Bool.and_eq_true, beq_iff_eq] at also mine
        rw [also.1.1, mine.1.1]
      rw [serve_of_run (Query.run?_held_one caller batch h.distinct member only)]
      exact .changes caller member mine
    · have nothing : ∀ row ∈ rows, row.isHeld id worker = false := by simpa using mine
      rw [serve_of_run (Query.run?_held_none caller batch nothing)]
      exact .nothing
  cases r with
  | schedule id payload due =>
    by_cases unused : ∀ row ∈ rows, row.jobId ≠ id
    · rw [serve_of_run (Query.run?_insert payload due batch unused)]
      exact .adds rfl unused
    · have taken : (rows.any fun row => row.jobId == id) = true := by simpa using unused
      have fails : (Request.schedule id payload due).query.run? order
          ((Request.schedule id payload due).params batch) rows = none := by
        change (if (rows.any fun row => row.jobId == id) = true then none else some _) = none
        rw [if_pos taken]
      rw [Request.serve, fails]
      exact .nothing
  | claim worker now until_ =>
    obtain ⟨runs, -⟩ | ⟨first, member, due, -, runs⟩ :=
      Query.run?_claim order worker now until_ batch h.distinct
    · rw [serve_of_run runs]
      exact .nothing
    · rw [serve_of_run runs]
      exact .claims rfl member (Bool.and_eq_true_iff.mp due).1
  | prune cutoff =>
    obtain ⟨affected, gone, runs, old⟩ := Query.run?_prune cutoff batch h.distinct
    rw [serve_of_run runs]
    exact .prunes rfl old
  | keep | complete | retry | forget => exact of_caller rfl

end Tidy

theorem Store.Request.jobId_rewrite (r : Request) (row : JobRow) :
    (r.rewrite row).jobId = row.jobId := by
  cases r <;> rfl

namespace Serves
variable {r : Request} {rows after : List JobRow} {row : JobRow}

theorem kind_of_held {worker : WorkerId} {id : Uuid} {held : JobRow}
    (caller : r.caller? = some (worker, id)) (mine : held.isHeld id worker = true) :
    (r.rewrite held).isPending = true ∨
      ((r.rewrite held).isFinished = true ∧ ∃ job,
        r = .complete worker job (r.rewrite held).invisibleUntil ∨
          r = .forget worker job (r.rewrite held).invisibleUntil) := by
  have claimed : held.status = JobStatus.claimed.name := eq_of_beq (Bool.and_eq_true_iff.mp mine).2
  cases r with
  | schedule | claim | prune => cases caller
  | keep => exact .inl (JobRow.isPending_eq (s := .claimed) claimed)
  | retry => exact .inl (JobRow.isPending_eq (s := .ready) rfl)
  | complete _ job _ =>
    cases caller
    exact .inr ⟨JobRow.isFinished_eq (s := .completed) rfl, job, .inl rfl⟩
  | forget _ job _ =>
    cases caller
    exact .inr ⟨JobRow.isFinished_eq (s := .failed) rfl, job, .inr rfl⟩

theorem of_prune {cutoff : Instant} (h : Serves (.prune cutoff) rows after) (later : row ∈ after) :
    row ∈ rows := by
  cases h with
  | nothing => exact later
  | adds asks => cases asks
  | claims asks => cases asks
  | changes caller => cases caller
  | prunes => exact (List.mem_filter.mp later).1

theorem tidy (h : Serves r rows after) (before : Tidy rows) : Tidy after := by
  have put {new : JobRow} (kind : new.isPending = true ∨ new.isFinished = true) :
      Tidy (JobRow.put new rows) := by
    refine ⟨by rw [JobRow.ids_put]; exact before.distinct, fun row member => ?_⟩
    obtain rfl | member := JobRow.mem_put member
    · exact kind
    · exact before.kinds row member
  cases h with
  | nothing => exact before
  | @adds id payload due asks unused =>
    refine ⟨?_, fun row member => ?_⟩
    · rw [List.map_append, List.nodup_append]
      refine ⟨before.distinct, List.nodup_singleton _, ?_⟩
      rintro a known b last rfl
      obtain ⟨row, member, rfl⟩ := List.mem_map.mp known
      exact unused row member (List.mem_singleton.mp last)
    · obtain member | last := List.mem_append.mp member
      · exact before.kinds row member
      · rw [List.mem_singleton.mp last]
        exact .inl (JobRow.isPending_eq (s := .ready) rfl)
  | claims asks member pending =>
    subst asks
    exact put (.inl (JobRow.isPending_eq (s := .claimed) rfl))
  | changes caller member mine => exact put ((kind_of_held caller mine).imp_right And.left)
  | prunes asks old =>
    exact ⟨before.distinct.sublist (List.filter_sublist.map _), fun row member =>
      before.kinds row (List.mem_filter.mp member).1⟩

theorem keeps_finished (h : Serves r rows after) (before : Tidy rows) (member : row ∈ rows)
    (finished : row.isFinished = true) : row ∈ after ∨ ∃ cutoff, r = .prune cutoff := by
  -- A row that is changed is pending, so it is another one.
  have put {first : JobRow} (known : first ∈ rows) (pending : first.isPending = true) :
      row ∈ JobRow.put (r.rewrite first) rows := by
    refine JobRow.mem_put_of_ne member fun same => ?_
    obtain rfl := before.eq_of_id member known (same.trans (r.jobId_rewrite first))
    exact Bool.false_ne_true ((JobRow.isPending_of_isFinished finished).symm.trans pending)
  cases h with
  | nothing => exact .inl member
  | adds => exact .inl (List.mem_append_left _ member)
  | claims asks known pending => exact .inl (put known pending)
  | changes caller known mine => exact .inl (put known (JobRow.isPending_of_isHeld mine))
  | prunes asks old => exact .inr ⟨_, asks⟩

theorem fixes_finished (h : Serves r rows after) (before : Tidy rows) (member : row ∈ rows)
    (finished : row.isFinished = true) {other : JobRow} (later : other ∈ after)
    (same : other.jobId = row.jobId) : other = row := by
  obtain kept | ⟨cutoff, rfl⟩ := h.keeps_finished before member finished
  · exact (h.tidy before).eq_of_id later kept same
  · exact before.eq_of_id (h.of_prune later) member same

theorem finished_by (h : Serves r rows after) (member : row ∈ after)
    (finished : row.isFinished = true) :
    row ∈ rows ∨ ∃ worker job held, (r = .complete worker job row.invisibleUntil ∨
      r = .forget worker job row.invisibleUntil) ∧ held ∈ rows ∧
        held.isHeld row.jobId worker = true ∧ row = r.rewrite held := by
  cases h with
  | nothing => exact .inl member
  | adds =>
    obtain known | last := List.mem_append.mp member
    · exact .inl known
    · rw [List.mem_singleton.mp last, JobRow.isFinished_eq (s := .ready) rfl] at finished
      cases finished
  | claims asks known pending =>
    obtain rfl | known := JobRow.mem_put member
    · subst asks
      rw [JobRow.isFinished_eq (s := .claimed) rfl] at finished
      cases finished
    · exact .inl known
  | changes caller known mine =>
    rename_i worker id held
    obtain rfl | known := JobRow.mem_put member
    · obtain pending | ⟨-, job, call⟩ := kind_of_held caller mine
      · rw [JobRow.isPending_of_isFinished finished] at pending
        cases pending
      · have same : held.jobId = id := by
          simp only [JobRow.isHeld, Bool.and_eq_true, beq_iff_eq] at mine
          exact mine.1.1
        refine .inr ⟨worker, job, held, call, by assumption, ?_, rfl⟩
        rw [r.jobId_rewrite, same]
        exact mine
    · exact .inl known
  | prunes asks old => exact .inl (List.mem_filter.mp member).1

theorem pruned {cutoff : Instant} (h : Serves (.prune cutoff) rows after) (member : row ∈ rows)
    (gone : row ∉ after) : row.isFinished = true ∧ row.invisibleUntil < cutoff := by
  cases h with
  | nothing => exact absurd member gone
  | adds asks => cases asks
  | claims asks => cases asks
  | changes caller => cases caller
  | prunes asks old =>
    cases asks
    refine old row member (Bool.not_eq_false _ ▸ fun kept => gone ?_)
    exact List.mem_filter.mpr ⟨member, by rw [kept]; rfl⟩

end Serves

/-- The times that workers and cleaners put into their requests when the clock shows `reading`. -/
def Store.Request.Timely (keep : Duration) (reading : Instant) : Request → Prop
  | .complete _ _ now | .forget _ _ now => now = reading
  | .prune cutoff => cutoff = reading.before keep
  | _ => True

theorem Poller.finalizing_of_step {c : Context} {p : Phase} {e : Event} {job : Job}
    {call : Finalization} (step : step c p e = some (.finalizing job call)) :
    ∃ success, call = finalization c.settings c.instant job success := by
  have leads := step_eq_some_iff.mp step
  cases e with
  | conclude =>
    obtain ⟨run, -, -, next⟩ := leads
    split at next
    · cases next
    · cases next
      exact ⟨_, rfl⟩
  | go =>
    have next := leads.2
    split at next <;> cases next
  | claimed r =>
    have next := leads.2
    cases r with
    | job | panicked => cases next
    | nothing | failed =>
      simp only [claimed] at next
      split at next <;> cases next
  | finalized r =>
    have next := leads.2
    split at next <;> cases next
  | wake =>
    obtain ⟨-, -, -, next⟩ := leads
    cases next
  | cut =>
    obtain ⟨-, -, next⟩ := leads
    cases next
  | handlerEnded r =>
    obtain ⟨run, -, -, next⟩ := leads
    cases next
  | finish =>
    obtain ⟨run, -, -, next⟩ := leads
    cases next
  | lease e =>
    obtain ⟨run, -, -, lease, -, next⟩ := leads
    cases next

theorem Cleaner.pruning_of_step {c : Poller.Context} {p : Phase} {e : Event} {streak : Nat}
    {cutoff : Instant} (step : step c p e = some (.pruning streak cutoff)) :
    cutoff = c.instant.before c.settings.keepFinished := by
  have leads := step_eq_some_iff.mp step
  cases e with
  | wake =>
    obtain ⟨_, _, -, -, next⟩ := leads
    cases next
    rfl
  | rest drawn =>
    obtain ⟨_, -, next⟩ := leads
    split at next
    · cases next
    · cases next.2
  | cut => cases leads.2.2
  | pruned r =>
    obtain ⟨_, _, -, next⟩ := leads
    split at next <;> cases next

namespace Loop

theorem timely_of_step {c : Poller.Context} {loop next : Loop} {e : Event} {r : Request}
    (step : loop.step c e = some next) (asks : next.request? = some r) :
    r.Timely c.settings.keepFinished c.instant := by
  cases loop with
  | worker id phase =>
    cases e with
    | cleaner => cases step
    | worker e =>
      obtain ⟨after, moves, rfl⟩ := Option.map_eq_some_iff.mp step
      cases after with
      | checking | resting | stopped | panicked => cases asks
      | claiming now until_ =>
        cases asks
        trivial
      | running run =>
        obtain ⟨job, result, finished, lease⟩ := run
        cases lease with
        | resting | ended => cases asks
        | renewing =>
          cases asks
          trivial
      | finalizing job call =>
        cases asks
        obtain ⟨success, rfl⟩ := Poller.finalizing_of_step moves
        rw [Poller.finalization]
        split
        · rfl
        · split
          · trivial
          · rfl
  | cleaner phase =>
    cases e with
    | worker => cases step
    | cleaner e =>
      obtain ⟨after, moves, rfl⟩ := Option.map_eq_some_iff.mp step
      cases after with
      | idle | resting | stopped | panicked => cases asks
      | pruning streak cutoff =>
        cases asks
        exact Cleaner.pruning_of_step moves

end Loop

namespace Deployment

/-- A last call that makes a row of its job a finished one, with the time at which it was begun. -/
def Entry.Finishes (e : Entry) (row : JobRow) : Prop :=
  ∃ worker job held, (e.request = .complete worker job e.reading ∨
    e.request = .forget worker job e.reading) ∧ held ∈ e.before ∧
    held.isHeld row.jobId worker = true ∧ row = e.request.rewrite held ∧ row ∈ e.after

/-- The statement changes no finished row, and deletes none unless it is a prune. A prune deletes
finished rows only, each of them longer than `keep` after it was finished by one of the earlier
statements. -/
def Entry.Retains (keep : Duration) (earlier : List Entry) (e : Entry) : Prop :=
  (∀ row ∈ e.before, row.isFinished = true →
    (∀ other ∈ e.after, other.jobId = row.jobId → other = row) ∧
    (row ∈ e.after ∨ ∃ cutoff, e.request = .prune cutoff)) ∧
  ∀ cutoff, e.request = .prune cutoff → ∀ row ∈ e.before, row ∉ e.after →
    row.isFinished = true ∧ ∃ finish ∈ earlier, finish.Finishes row ∧
      (keep.nanos : Int) < e.reading.nanos - finish.reading.nanos

/-- Statements that lead from the empty table to some rows, the latest first. -/
def Chained : List Entry → List JobRow → Prop
  | [], rows => rows = []
  | e :: earlier, rows => e.after = rows ∧ Chained earlier e.before

structure Sound (keep : Duration) (log : List Entry) (f : Deployment) : Prop where
  keep_eq : f.settings.keepFinished = keep
  chained : Chained log f.rows
  tidy : Tidy f.rows
  calls : ∀ p ∈ f.parties, ∀ c ∈ p.call, c.request.Timely keep c.reading
  strays : ∀ c ∈ f.strays, c.request.Timely keep c.reading
  finished : ∀ row ∈ f.rows, row.isFinished = true → ∃ e ∈ log, e.Finishes row
  retained : ∀ later e earlier, log = later ++ e :: earlier → e.Retains keep earlier

variable {keep : Duration} {log : List Entry} {f g : Deployment}

theorem Sound.served (h : f.Sound keep log) {c : Call} (timely : c.request.Timely keep c.reading)
    (order : RowOrder) :
    ({ f with rows := (f.served order c).2.after } : Deployment).Sound keep
      ((f.served order c).2 :: log) := by
  have serves : Serves c.request f.rows (f.served order c).2.after :=
    h.tidy.serves c.request order f.pruneBatch
  have retains : (f.served order c).2.Retains keep log := by
    refine ⟨fun row member finished => ⟨fun other => serves.fixes_finished h.tidy member finished,
      serves.keeps_finished h.tidy member finished⟩, fun cutoff asks row member gone => ?_⟩
    have asked : c.request = .prune cutoff := asks
    rw [asked] at serves timely
    obtain ⟨finished, early⟩ := serves.pruned member gone
    obtain ⟨e, known, finishes⟩ := h.finished row member finished
    refine ⟨finished, e, known, finishes, ?_⟩
    -- The row carries the time at which it was finished.
    obtain ⟨worker, job, held, call, -, -, same, -⟩ := finishes
    have time : row.invisibleUntil = e.reading := by
      rw [same]
      rcases call with call | call <;> rw [call] <;> rfl
    have low := e.reading.earliest_le
    rw [timely, time, Instant.lt_iff, Instant.nanos_before] at early
    change _ < c.reading.nanos - _
    simp only [Instant.minNanos] at early
    omega
  refine ⟨h.keep_eq, ⟨rfl, h.chained⟩, serves.tidy h.tidy, h.calls, h.strays, ?_, ?_⟩
  · intro row member finished
    obtain known | ⟨worker, job, held, call, before, mine, same⟩ :=
      serves.finished_by member finished
    · obtain ⟨e, earlier, finishes⟩ := h.finished row known finished
      exact ⟨e, List.mem_cons_of_mem _ earlier, finishes⟩
    · have time : row.invisibleUntil = c.reading := by
        rcases call with call | call
        · rw [call] at timely
          exact timely
        · rw [call] at timely
          exact timely
      rw [time] at call
      exact ⟨(f.served order c).2, List.mem_cons_self, worker, job, held, call, before, mine, same,
        member⟩
  · intro later e earlier split
    cases later with
    | nil =>
      cases split
      exact retains
    | cons _ later => exact h.retained later e earlier (List.cons.inj split).2

theorem Sound.setParty (h : f.Sound keep log) (i : Nat) {p : Party}
    (timely : ∀ c ∈ p.call, c.request.Timely keep c.reading) : (f.setParty i p).Sound keep log where
  keep_eq := h.keep_eq
  chained := h.chained
  tidy := h.tidy
  calls other member := by
    obtain member | rfl := List.mem_or_eq_of_mem_set member
    · exact h.calls other member
    · exact timely
  strays := h.strays
  finished := h.finished
  retained := h.retained

theorem Sound.move (h : f.Sound keep log) {i : Nat} {p : Party} (member : p ∈ f.parties)
    {e : Loop.Event} {loop : Loop} (step : p.loop.step (f.context p) e = some loop) :
    (f.move i p loop).Sound keep log := by
  have timely := h.calls p member
  rw [Deployment.move]
  split
  next request none =>
    refine h.setParty i fun c begun => ?_
    obtain ⟨r, asks, rfl⟩ := Option.map_eq_some_iff.mp begun
    have fresh := Loop.timely_of_step step asks
    rw [← h.keep_eq]
    exact fresh
  next => exact h.setParty i timely
  next c call _ =>
    have kept := h.setParty i (p := { p with loop, call := none }) fun c none => by cases none
    refine { kept with strays := fun stray late => ?_ }
    obtain known | left := List.mem_append.mp late
    · exact h.strays stray known
    · split at left
      · rw [List.mem_singleton.mp left]
        exact timely c call
      · cases left

theorem Sound.step (h : f.Sound keep log) {e : Event} {entry : Option Entry}
    (step : f.step e = some (entry, g)) : g.Sound keep (entry.toList ++ log) := by
  cases e with
  | advance time clock =>
    obtain ⟨-, next⟩ := Option.ite_none_right_eq_some.mp step
    cases next
    exact ⟨h.keep_eq, h.chained, h.tidy, h.calls, h.strays, h.finished, h.retained⟩
  | schedule order id payload due =>
    cases step
    have timely : (Request.schedule id payload due).Timely keep f.instant := trivial
    exact h.served (c := ⟨_, _, none⟩) timely order
  | shutdown i =>
    obtain ⟨p, found, next⟩ := Option.bind_eq_some_iff.mp step
    cases next
    exact h.setParty i (h.calls p (List.mem_of_getElem? found))
  | restart i =>
    obtain ⟨p, found, rest⟩ := Option.bind_eq_some_iff.mp step
    obtain ⟨loop, -, next⟩ := Option.bind_eq_some_iff.mp rest
    cases next
    exact h.setParty i (h.calls p (List.mem_of_getElem? found))
  | act i e =>
    obtain ⟨-, able⟩ := Option.ite_none_left_eq_some.mp step
    obtain ⟨p, found, rest⟩ := Option.bind_eq_some_iff.mp able
    obtain ⟨loop, moves, next⟩ := Option.bind_eq_some_iff.mp rest
    cases next
    exact h.move (List.mem_of_getElem? found) moves
  | serve i order =>
    obtain ⟨p, found, rest⟩ := Option.bind_eq_some_iff.mp step
    obtain ⟨c, waits, next⟩ := Option.bind_eq_some_iff.mp rest
    cases next
    have timely := h.calls p (List.mem_of_getElem? found) c (Option.filter_eq_some_iff.mp waits).1
    refine (h.served timely order).setParty i fun other same => ?_
    cases same
    exact timely
  | serveStray k order =>
    obtain ⟨c, found, next⟩ := Option.bind_eq_some_iff.mp step
    cases next
    have served := h.served (h.strays c (List.mem_of_getElem? found)) order
    exact { served with strays := fun other late => h.strays other (List.mem_of_mem_eraseIdx late) }
  | return_ i r =>
    obtain ⟨p, found, rest⟩ := Option.bind_eq_some_iff.mp step
    obtain ⟨c, -, rest⟩ := Option.bind_eq_some_iff.mp rest
    obtain ⟨result, -, rest⟩ := Option.bind_eq_some_iff.mp rest
    obtain ⟨e, -, rest⟩ := Option.bind_eq_some_iff.mp rest
    obtain ⟨loop, moves, next⟩ := Option.bind_eq_some_iff.mp rest
    cases next
    exact h.move (List.mem_of_getElem? found) moves

theorem Sound.run (h : f.Sound keep log) {events : List Event} {more : List Entry}
    (run : f.run? events = some (more, g)) : g.Sound keep (more ++ log) := by
  induction events generalizing f log more with
  | nil =>
    cases run
    exact h
  | cons e rest ih =>
    obtain ⟨⟨entry, between⟩, step, later⟩ := Option.bind_eq_some_iff.mp run
    obtain ⟨⟨last, final⟩, run, next⟩ := Option.bind_eq_some_iff.mp later
    cases next
    rw [List.append_assoc]
    exact ih (h.step step) run

theorem sound_start {raw : Settings} {clock : Clock} {pruneBatch : Nat} {workers : List WorkerId}
    {cleaners : Nat} :
    (start raw clock pruneBatch workers cleaners).Sound raw.clamped.keepFinished [] where
  keep_eq := rfl
  chained := rfl
  tidy := ⟨List.nodup_nil, fun _ member => absurd member List.not_mem_nil⟩
  calls p member c call := by
    obtain worker | cleaner := List.mem_append.mp member
    · obtain ⟨id, -, rfl⟩ := List.mem_map.mp worker
      cases call
    · obtain rfl := List.eq_of_mem_replicate cleaner
      cases call
  strays _ member := absurd member List.not_mem_nil
  finished _ member := absurd member List.not_mem_nil
  retained later _ _ split := by cases later <;> cases split

/-- In every run of workers and cleaners at one table, no statement changes a row that is completed
or failed, except for prunes. A prune deletes only such rows, and each of them more than the
retention after the time that was passed to the call that finished it. -/
theorem prunes_respect_retention {raw : Settings} {clock : Clock} {pruneBatch : Nat}
    {workers : List WorkerId} {cleaners : Nat} {events : List Event} {log : List Entry}
    {f : Deployment}
    (run : (start raw clock pruneBatch workers cleaners).run? events = some (log, f)) :
    Chained log f.rows ∧ ∀ later e earlier, log = later ++ e :: earlier →
      e.Retains raw.clamped.keepFinished earlier := by
  have sound := sound_start.run run
  rw [List.append_nil] at sound
  exact ⟨sound.chained, sound.retained⟩

def firstPrune : List Event := [
  .schedule .oldestFirst (.ofNat 1) ⟨"mail", .null⟩ .epoch,
  .act 0 (.worker .go), .serve 0 .oldestFirst, .return_ 0 .reply,
  .act 0 (.worker (.handlerEnded .ok)), .act 0 (.worker .finish), .act 0 (.worker (.lease .finish)),
  .act 0 (.worker .conclude), .serve 0 .oldestFirst, .return_ 0 .reply,
  .act 1 (.cleaner (.rest Duration.hour.nanos)),
  .advance (Duration.ofSeconds 7776001).nanos ⟨.epoch⟩,
  .act 1 (.cleaner .wake), .serve 1 .oldestFirst]

theorem firstPrune_deletes :
    ∃ prune earlier f,
      (start {} ⟨.epoch⟩ 100 [⟨.ofNat 7⟩] 1).run? firstPrune = some (prune :: earlier, f) ∧
      prune.before.length = 1 ∧ f.rows = [] ∧ Chained (prune :: earlier) f.rows ∧
      prune.Retains (Settings.clamped {}).keepFinished earlier := by
  have through : ((start {} ⟨.epoch⟩ 100 [⟨.ofNat 7⟩] 1).run? firstPrune).any
      (fun r => r.1.head?.any (fun e => e.before.length == 1) && r.2.rows.isEmpty) = true := by
    decide +kernel
  obtain ⟨⟨log, f⟩, run, last⟩ := (Option.any_eq_true _ _).mp through
  obtain ⟨served, empty⟩ := Bool.and_eq_true_iff.mp last
  cases log with
  | nil => cases served
  | cons prune earlier =>
    have ⟨chained, retained⟩ := prunes_respect_retention run
    exact ⟨prune, earlier, f, run, eq_of_beq served, List.isEmpty_iff.mp empty, chained,
      retained [] prune earlier rfl⟩

end Deployment
end DelayedJobs
