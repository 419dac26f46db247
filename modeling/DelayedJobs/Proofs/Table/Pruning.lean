import DelayedJobs.Proofs.Deployment.Basic
import DelayedJobs.Proofs.Table.Database
import DelayedJobs.Proofs.Table.Rows

/-!
Prunes in a row on one table, with nothing else between them. Each deletes a full batch as long as
there is one, whichever rows the database comes upon first. A full batch is the sign that there may
be more, so the signs are as many as there are full batches, and the first call without one deletes
what is left.
-/

namespace DelayedJobs

/-- Statements do what they say: an instant arrives as it was sent. -/
def Statement.serveAsSent (order : RowOrder) (s : TableSettings) :
    Statement → StateM (List JobRow) Reply
  | .install _ => pure (.done 0 [])
  | .request r => fun rows => r.serve order s.pruneBatch.toNat rows

def JobRow.backlog (cutoff : Instant) (rows : List JobRow) : Nat := rows.countP (isPrunable cutoff)

structure Prunes (cutoff : Instant) (batch : Nat) (rows after : List JobRow) : Prop where
  distinct : (after.map JobRow.jobId).Nodup
  left : JobRow.backlog cutoff after = JobRow.backlog cutoff rows - batch
  others : after.filter (fun row => !row.isPrunable cutoff) =
    rows.filter fun row => !row.isPrunable cutoff

structure Drained (cutoff : Instant) (batch rounds : Nat) (rows : List JobRow)
    (results : List Session.Result) (after : List JobRow) : Prop where
  results : results = (List.range rounds).map fun k =>
    .ok (.pruned (decide (k < JobRow.backlog cutoff rows / batch)))
  left : JobRow.backlog cutoff after = JobRow.backlog cutoff rows - rounds * batch
  others : after.filter (fun row => !row.isPrunable cutoff) =
    rows.filter fun row => !row.isPrunable cutoff

section Rows
variable {cutoff : Instant} {batch rounds : Nat} {rows between after : List JobRow}
  {results : List Session.Result}

theorem Query.run?_prunes (order : RowOrder) (cutoff : Instant) (batch : Nat)
    (distinct : (rows.map JobRow.jobId).Nodup) :
    ∃ after, (Store.Request.prune cutoff).query.run? order
        ((Store.Request.prune cutoff).params batch) rows =
          some (⟨min batch (JobRow.backlog cutoff rows), []⟩, after) ∧
      Prunes cutoff batch rows after := by
  obtain ⟨gone, runs, count, old⟩ := run?_prune_batch order cutoff batch distinct
  rw [count] at runs
  refine ⟨_, runs, distinct.sublist (List.filter_sublist.map _), ?_, ?_⟩
  · have among : rows.countP (fun row => row.isPrunable cutoff && gone row) = rows.countP gone := by
      refine List.countP_congr fun row member => ?_
      rw [Bool.and_eq_true, and_iff_right_iff_imp]
      exact old row member
    have split : rows.countP (JobRow.isPrunable cutoff) =
        rows.countP (fun row => row.isPrunable cutoff && gone row) +
          rows.countP (fun row => row.isPrunable cutoff && !gone row) := by
      simpa only [List.countP_filter, Bool.not_eq_true, Bool.decide_eq_false, Bool.and_comm]
        using List.countP_eq_countP_filter_add rows (JobRow.isPrunable cutoff) gone
    rw [JobRow.backlog, JobRow.backlog, List.countP_filter]
    omega
  · rw [List.filter_filter]
    refine List.filter_congr fun row member => ?_
    cases taken : gone row with
    | false => simp
    | true => simp [old row member taken]

namespace Drained

theorem nil (cutoff : Instant) (batch : Nat) (rows : List JobRow) :
    Drained cutoff batch 0 rows [] rows where
  results := rfl
  left := by simp
  others := rfl

theorem cons (positive : 0 < batch) (first : Prunes cutoff batch rows between)
    (rest : Drained cutoff batch rounds between results after) :
    Drained cutoff batch (rounds + 1) rows
      (.ok (.pruned (decide (batch ≤ JobRow.backlog cutoff rows))) :: results) after where
  left := by
    rw [rest.left, first.left, Nat.sub_sub, Nat.succ_mul, Nat.add_comm]
  others := rest.others.trans first.others
  results := by
    have fewer : JobRow.backlog cutoff between / batch =
        JobRow.backlog cutoff rows / batch - 1 := by
      rw [first.left]
      simpa using Nat.sub_mul_div (JobRow.backlog cutoff rows) batch 1
    have head : batch ≤ JobRow.backlog cutoff rows ↔ 0 < JobRow.backlog cutoff rows / batch := by
      rw [Nat.div_pos_iff, and_iff_right positive]
    rw [rest.results, List.range_succ_eq_map, List.map_cons, List.map_map, fewer]
    simp only [head, Function.comp_def, Nat.lt_sub_iff_add_lt]

theorem eq_others (positive : 0 < batch) (h : Drained cutoff batch rounds rows results after)
    (past : JobRow.backlog cutoff rows / batch < rounds) :
    after = rows.filter fun row => !row.isPrunable cutoff := by
  have all : JobRow.backlog cutoff rows ≤ rounds * batch :=
    Nat.le_of_lt ((Nat.div_lt_iff_lt_mul positive).mp past)
  have nothing : after.countP (JobRow.isPrunable cutoff) = 0 :=
    h.left.trans (Nat.sub_eq_zero_of_le all)
  refine (List.filter_eq_self.mpr fun row member => ?_).symm.trans h.others
  rw [Bool.not_eq_true', Bool.eq_false_iff]
  exact List.countP_eq_zero.mp nothing row member

end Drained
end Rows

theorem TableSettings.pruneBatch_pos {s : TableSettings} (valid : s.validate = .ok ()) :
    0 < s.pruneBatch.toNat := by
  rw [Nat.pos_iff_ne_zero]
  intro none_
  have zero : s.pruneBatch = 0 := UInt32.toNat_inj.mp none_
  have faulty : s.fault?.isSome = true := by
    rw [fault?, if_pos zero]
    split
    · rfl
    · split
      · rfl
      · split <;> rfl
  obtain ⟨text, fault⟩ := Option.isSome_iff_exists.mp faulty
  rw [validate, fault] at valid
  cases valid

namespace TableStore
variable {t : TableStore}

def batch (t : TableStore) : Nat := t.session.settings.pruneBatch.toNat

def prune (t : TableStore) (cutoff : Instant) (order : RowOrder) : Session.Result × TableStore :=
  let serve := Statement.serveAsSent order t.session.settings
  let ((result, session), rows) := (t.session.perform serve (.request (.prune cutoff))).run t.rows
  (result, { session, rows })

/-- Prunes in a row. Each time the database comes upon the rows in an order of its own. -/
def prunes (t : TableStore) (cutoff : Instant) : List RowOrder → List Session.Result × TableStore
  | [] => ([], t)
  | order :: rest =>
    let (result, t) := t.prune cutoff order
    let (results, t) := t.prunes cutoff rest
    (result :: results, t)

theorem prune_eq (notInstalling : t.session.gate ≠ .installing) (opened : t.session.closed = false)
    (distinct : (t.rows.map JobRow.jobId).Nodup) (cutoff : Instant) (order : RowOrder) :
    ∃ after, Prunes cutoff t.batch t.rows after ∧ t.prune cutoff order =
      (.ok (.pruned (decide (t.batch ≤ JobRow.backlog cutoff t.rows))),
        { session := { t.session with gate := .installed }, rows := after }) := by
  obtain ⟨after, runs, prunes⟩ := Query.run?_prunes order cutoff t.batch distinct
  have served : (Store.Request.prune cutoff).serve order t.batch t.rows =
      (.done (min t.batch (JobRow.backlog cutoff t.rows)) [], after) := by
    rw [Store.Request.serve, runs]
  have serves : (Statement.serveAsSent order t.session.settings (.request (.prune cutoff))).run
      t.rows = _ := served
  have full : decide (t.batch ≤ min t.batch (JobRow.backlog cutoff t.rows)) =
      decide (t.batch ≤ JobRow.backlog cutoff t.rows) := by
    rw [decide_eq_decide, Nat.le_min, and_iff_right (Nat.le_refl _)]
  refine ⟨after, prunes, ?_⟩
  rw [← full, prune, Session.perform_request (fun _ => rfl) notInstalling opened]
  simp only [StateT.run_bind, serves]
  rfl

theorem drained (positive : 0 < t.batch) (notInstalling : t.session.gate ≠ .installing)
    (opened : t.session.closed = false) (distinct : (t.rows.map JobRow.jobId).Nodup)
    (cutoff : Instant) (orders : List RowOrder) :
    Drained cutoff t.batch orders.length t.rows (t.prunes cutoff orders).1
      (t.prunes cutoff orders).2.rows := by
  induction orders generalizing t with
  | nil => exact .nil cutoff _ t.rows
  | cons order rest ih =>
    obtain ⟨between, first, eq⟩ := prune_eq notInstalling opened distinct cutoff order
    have next := ih (t := { session := { t.session with gate := .installed }, rows := between })
      positive (by simp) opened first.distinct
    rw [prunes, eq]
    exact .cons positive first next

/-- However many rows there are to prune, and however many a batch may hold: prunes in a row tell of
more as many times as there are full batches, and never again. The first that does not has deleted
the last of these rows. Every other row stays as it is. -/
theorem prunes_drain_backlog (valid : t.session.settings.validate = .ok ())
    (notInstalling : t.session.gate ≠ .installing) (opened : t.session.closed = false)
    (distinct : (t.rows.map JobRow.jobId).Nodup) (cutoff : Instant) (orders : List RowOrder) :
    let batch := t.session.settings.pruneBatch.toNat
    let n := t.rows.countP (JobRow.isPrunable cutoff)
    let results := (t.prunes cutoff orders).1
    let after := (t.prunes cutoff orders).2.rows
    (∀ row : JobRow, row.isPrunable cutoff = true ↔
        (row.status = "completed" ∨ row.status = "failed") ∧ row.invisibleUntil < cutoff) ∧
      0 < batch ∧
      results = (List.range orders.length).map (fun k => .ok (.pruned (decide (k < n / batch)))) ∧
      after.countP (JobRow.isPrunable cutoff) = n - orders.length * batch ∧
      after.filter (fun row => !row.isPrunable cutoff) =
        t.rows.filter (fun row => !row.isPrunable cutoff) ∧
      (n / batch < orders.length → after = t.rows.filter fun row => !row.isPrunable cutoff) := by
  intro batch n results after
  have positive : 0 < t.batch := TableSettings.pruneBatch_pos valid
  have drained := drained positive notInstalling opened distinct cutoff orders
  refine ⟨fun row => ?_, positive, drained.results, drained.left, drained.others,
    drained.eq_others positive⟩
  rw [JobRow.isPrunable_iff, JobRow.isFinished, Bool.or_eq_true, beq_iff_eq, beq_iff_eq]
  rfl

def sevenRows : TableStore :=
  let row (n : Nat) (status : JobStatus) (time : Instant) : JobRow :=
    .ofJob { Job.new (.ofNat n) ⟨"mail", .null⟩ .earliest with status, invisibleUntil := time }
  { session := { settings := { connection := "database", pruneBatch := 2 } }
    rows := [row 1 .completed .earliest, row 2 .ready .earliest, row 3 .failed (.nearest (-1)),
      row 4 .completed .epoch, row 5 .claimed .earliest, row 6 .failed .earliest,
      row 7 .completed (.nearest (-1))] }

def eitherEnd : List RowOrder :=
  let backwards : RowOrder := ⟨List.reverse, List.reverse_perm⟩
  [.oldestFirst, backwards, .oldestFirst, backwards]

theorem sevenRows_drained :
    sevenRows.session.settings.validate = .ok () ∧ sevenRows.session.gate ≠ .installing ∧
      sevenRows.session.closed = false ∧ (sevenRows.rows.map JobRow.jobId).Nodup ∧
      (sevenRows.prunes .epoch eitherEnd).1 =
        [.ok (.pruned true), .ok (.pruned true), .ok (.pruned false), .ok (.pruned false)] ∧
      (sevenRows.prunes .epoch eitherEnd).2.rows.map JobRow.jobId =
        [.ofNat 2, .ofNat 4, .ofNat 5] := by
  have valid : sevenRows.session.settings.validate = .ok () := by decide
  have notInstalling : sevenRows.session.gate ≠ .installing := by decide
  have opened : sevenRows.session.closed = false := rfl
  have distinct : (sevenRows.rows.map JobRow.jobId).Nodup := by decide
  obtain ⟨-, -, results, -, -, empty⟩ :=
    prunes_drain_backlog valid notInstalling opened distinct .epoch eitherEnd
  have four : sevenRows.rows.countP (JobRow.isPrunable .epoch) = 4 := by decide
  rw [four] at results empty
  refine ⟨valid, notInstalling, opened, distinct, results, ?_⟩
  rw [empty (by decide)]
  decide

end TableStore
end DelayedJobs
