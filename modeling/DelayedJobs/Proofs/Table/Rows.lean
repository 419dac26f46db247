import DelayedJobs.Proofs.Store.Effect
import DelayedJobs.Table.Meaning
import DelayedJobs.Table.Statement

/-!
What the statements of a table store do to rows. An update that fits every row it is about maps the
rows; the statements of a holder are about the one row that it holds, and a claim is about a row
that may be claimed and that no other such row precedes.
-/

namespace DelayedJobs

namespace JobRow

def isPending (r : JobRow) : Bool :=
  r.status == JobStatus.ready.name || r.status == JobStatus.claimed.name

def isHeld (id : Uuid) (worker : WorkerId) (r : JobRow) : Bool :=
  r.jobId == id && r.claimedBy == some worker.id && r.status == JobStatus.claimed.name

def isFinished (r : JobRow) : Bool :=
  r.status == JobStatus.completed.name || r.status == JobStatus.failed.name

def isDue (now : Instant) (r : JobRow) : Bool := r.isPending && decide (r.invisibleUntil ≤ now)

def isPrunable (cutoff : Instant) (r : JobRow) : Bool :=
  r.isFinished && decide (r.invisibleUntil < cutoff)

theorem isPrunable_iff {cutoff : Instant} {r : JobRow} :
    r.isPrunable cutoff = true ↔ r.isFinished = true ∧ r.invisibleUntil < cutoff := by
  rw [isPrunable, Bool.and_eq_true, decide_eq_true_iff]

def put (row : JobRow) (rows : List JobRow) : List JobRow :=
  rows.map fun r => if r.jobId = row.jobId then row else r

theorem mem_put {row r : JobRow} {rows : List JobRow} (h : r ∈ put row rows) :
    r = row ∨ r ∈ rows := by
  obtain ⟨old, member, rfl⟩ := List.mem_map.mp h
  split
  · exact .inl rfl
  · exact .inr member

theorem ids_put (row : JobRow) (rows : List JobRow) :
    (put row rows).map jobId = rows.map jobId := by
  rw [put, List.map_map]
  refine List.map_congr_left fun r _ => ?_
  rw [Function.comp_apply]
  split
  next same => exact same.symm
  next => rfl

end JobRow

namespace Store.Request

def rewrite : Request → JobRow → JobRow
  | claim worker _ until_, row =>
    { row with
      status := JobStatus.claimed.name
      claimedBy := some worker.id
      invisibleUntil := until_
      attempt := row.attempt + 1 }
  | keep _ _ until_, row => { row with invisibleUntil := until_ }
  | complete _ _ now, row =>
    { row with status := JobStatus.completed.name, invisibleUntil := now }
  | retry _ _ due, row =>
    { row with status := JobStatus.ready.name, claimedBy := none, invisibleUntil := due }
  | forget _ _ now, row => { row with status := JobStatus.failed.name, invisibleUntil := now }
  | schedule _ _ _, row | prune _, row => row

end Store.Request

namespace Query
open Store (Request)
variable {order : RowOrder} {params : List SqlValue} {rows : List JobRow}

theorem mapM_eq_some_map {α β : Type} {f : α → Option β} {g : α → β} {l : List α}
    (h : ∀ a ∈ l, f a = some (g a)) : l.mapM f = some (l.map g) := by
  induction l with
  | nil => rfl
  | cons a l ih =>
    obtain ⟨first, rest⟩ := List.forall_mem_cons.mp h
    rw [List.mapM_cons, first, ih rest]
    rfl

theorem changed_eq (about : JobRow → Bool) (g : JobRow → JobRow) (rows : List JobRow) :
    ((rows.zip (rows.map fun row => if about row then g row else row)).filterMap
      fun (row, row') => if about row then some row' else none) = (rows.filter about).map g := by
  induction rows with
  | nil => rfl
  | cons row rest ih =>
    cases h : about row <;> simp [h, ih]

theorem run?_update {changes : List (Column × Operand)} {target : Target} {returning : List Column}
    {g : JobRow → JobRow}
    (fits : ∀ row ∈ rows, isTarget order params rows target row = true →
      change? params changes row = some (g row)) :
    let about := isTarget order params rows target
    (update changes target returning).run? order params rows =
      some (⟨(rows.filter about).length,
        if returning.isEmpty then [] else (rows.filter about).map g⟩,
        rows.map fun row => if about row then g row else row) := by
  intro about
  have after : (rows.mapM fun row => if about row then change? params changes row else some row) =
      some (rows.map fun row => if about row then g row else row) := by
    refine mapM_eq_some_map fun row member => ?_
    split
    next h => exact fits row member h
    next => rfl
  simp only [run?, Option.bind_eq_bind, about] at after ⊢
  rw [after, Option.bind_some, changed_eq, List.length_map]
  rfl

theorem run?_update_none {changes : List (Column × Operand)} {target : Target}
    {returning : List Column}
    (nothing : ∀ row ∈ rows, isTarget order params rows target row = false) :
    (update changes target returning).run? order params rows = some (⟨0, []⟩, rows) := by
  have fits : ∀ row ∈ rows, isTarget order params rows target row = true →
      change? params changes row = some row :=
    fun row member h => absurd h (by simp [nothing row member])
  have untouched : rows.filter (isTarget order params rows target) = [] :=
    List.filter_eq_nil_iff.mpr fun row member => by simp [nothing row member]
  rw [run?_update fits, untouched]
  simp

theorem filter_eq_singleton {first : JobRow} (distinct : (rows.map JobRow.jobId).Nodup)
    (member : first ∈ rows) {about : JobRow → Bool}
    (one : ∀ row ∈ rows, about row = true ↔ row = first) : rows.filter about = [first] := by
  have known : first ∈ rows.filter about := List.mem_filter.mpr ⟨member, (one first member).mpr rfl⟩
  have nodup : (rows.filter about).Nodup := (distinct.of_map _).filter _
  have only : ∀ row ∈ rows.filter about, row = first := fun row hrow =>
    (one row (List.mem_filter.mp hrow).1).mp (List.mem_filter.mp hrow).2
  obtain ⟨n, all⟩ : ∃ n, rows.filter about = List.replicate n first :=
    ⟨_, List.eq_replicate_of_mem only⟩
  rw [all] at known nodup ⊢
  have few : n ≤ 1 := List.nodup_replicate.mp nodup
  have more : n ≠ 0 := (List.mem_replicate.mp known).1
  obtain rfl : n = 1 := by omega
  rfl

theorem run?_update_one {changes : List (Column × Operand)} {target : Target}
    {returning : List Column} {first new : JobRow} (distinct : (rows.map JobRow.jobId).Nodup)
    (member : first ∈ rows)
    (one : ∀ row ∈ rows, isTarget order params rows target row = true ↔ row = first)
    (changed : change? params changes first = some new) (same : new.jobId = first.jobId) :
    (update changes target returning).run? order params rows =
      some (⟨1, if returning.isEmpty then [] else [new]⟩, JobRow.put new rows) := by
  have fits : ∀ row ∈ rows, isTarget order params rows target row = true →
      change? params changes row = some new := by
    intro row hrow about
    rwa [(one row hrow).mp about]
  rw [run?_update (g := fun _ => new) fits, filter_eq_singleton distinct member one]
  have mapped : (rows.map fun row => if isTarget order params rows target row then new else row) =
      JobRow.put new rows := by
    refine List.map_congr_left fun row hrow => ?_
    have key : isTarget order params rows target row = true ↔ row.jobId = new.jobId := by
      rw [one row hrow, same]
      exact ⟨congrArg JobRow.jobId, List.inj_on_of_nodup_map distinct hrow member⟩
    simp only [key]
  simp only [mapped]
  rfl

theorem isTarget_held (id : Uuid) (worker : WorkerId) (t : Instant) (row : JobRow) :
    isTarget order [.uuid id, .uuid worker.id, .time t] rows Store.Request.heldTarget row =
      row.isHeld id worker := by
  cases owner : row.claimedBy <;>
    simp [isTarget, Store.Request.heldTarget, holdsAll, holds, value, JobRow.get, SqlValue.equals,
      JobRow.isHeld, owner, Bool.and_assoc]

theorem run?_held_none {r : Request} {worker : WorkerId} {id : Uuid}
    (caller : r.caller? = some (worker, id)) (batch : Nat)
    (nothing : ∀ row ∈ rows, row.isHeld id worker = false) :
    r.query.run? order (r.params batch) rows = some (⟨0, []⟩, rows) := by
  cases r with
  | schedule | claim | prune => cases caller
  | keep worker job t | complete worker job t | retry worker job t | forget worker job t =>
    cases caller
    refine run?_update_none fun row member => ?_
    exact (isTarget_held job.id worker t row).trans (nothing row member)

theorem run?_held_one {r : Request} {worker : WorkerId} {id : Uuid}
    (caller : r.caller? = some (worker, id)) (batch : Nat) {first : JobRow}
    (distinct : (rows.map JobRow.jobId).Nodup) (member : first ∈ rows)
    (one : ∀ row ∈ rows, row.isHeld id worker = true ↔ row = first) :
    r.query.run? order (r.params batch) rows =
      some (⟨1, []⟩, JobRow.put (r.rewrite first) rows) := by
  cases r with
  | schedule | claim | prune => cases caller
  | keep worker job t | complete worker job t | retry worker job t | forget worker job t =>
    cases caller
    refine run?_update_one distinct member (fun row hrow => ?_) rfl rfl
    exact (iff_of_eq (congrArg (· = true) (isTarget_held job.id worker t row))).trans (one row hrow)

/-! The row that a claim takes. -/

def claimSelection : Selection where
  conditions := [.hasStatus [.ready, .claimed], .atMost .invisibleUntil (.param 3)]
  order := [.invisibleUntil, .scheduledFor]
  limit := .number 1

theorem holdsAll_claim (worker until_ : SqlValue) (now : Instant) (row : JobRow) :
    holdsAll [worker, until_, .time now] claimSelection.conditions row = row.isDue now := by
  have atMost : (row.invisibleUntil == now || decide (row.invisibleUntil < now)) =
      decide (row.invisibleUntil ≤ now) := by
    rw [Bool.eq_iff_iff]
    simp only [Bool.or_eq_true, beq_iff_eq, decide_eq_true_iff, Instant.ext_iff, Instant.lt_iff,
      Instant.le_iff]
    omega
  simp [claimSelection, holdsAll, holds, value, JobRow.get, SqlValue.equals, SqlValue.before,
    JobRow.isDue, JobRow.isPending, atMost]

theorem inOrder_iff {a b : JobRow} : inOrder claimSelection.order a b = true ↔
    a.invisibleUntil < b.invisibleUntil ∨
      (a.invisibleUntil = b.invisibleUntil ∧ a.scheduledFor ≤ b.scheduledFor) := by
  simp only [claimSelection, inOrder, JobRow.get, SqlValue.before, Instant.ext_iff, Instant.lt_iff,
    Instant.le_iff, decide_eq_true_iff]
  split_ifs <;> simp <;> omega

theorem inOrder_trans (a b c : JobRow) (hab : inOrder claimSelection.order a b = true)
    (hbc : inOrder claimSelection.order b c = true) : inOrder claimSelection.order a c = true := by
  simp only [inOrder_iff, Instant.ext_iff, Instant.lt_iff, Instant.le_iff] at *
  omega

theorem inOrder_total (a b : JobRow) :
    (inOrder claimSelection.order a b || inOrder claimSelection.order b a) = true := by
  simp only [Bool.or_eq_true, inOrder_iff, Instant.ext_iff, Instant.lt_iff, Instant.le_iff]
  omega

theorem selected_claim (order : RowOrder) (rows : List JobRow) (worker until_ : SqlValue)
    (now : Instant) :
    (selected order [worker, until_, .time now] rows claimSelection = [] ∧
        ∀ row ∈ rows, row.isDue now = false) ∨
      ∃ first ∈ rows, first.isDue now = true ∧
        (∀ row ∈ rows, row.isDue now = true → first.invisibleUntil ≤ row.invisibleUntil) ∧
        selected order [worker, until_, .time now] rows claimSelection = [first.jobId] := by
  have conditions : holdsAll [worker, until_, .time now] claimSelection.conditions =
      JobRow.isDue now := funext (holdsAll_claim worker until_ now)
  simp only [selected, conditions]
  have seen (row : JobRow) : row ∈ ((order.arrange rows).filter (JobRow.isDue now)).mergeSort
      (inOrder claimSelection.order) ↔ row ∈ rows ∧ row.isDue now = true := by
    rw [List.mem_mergeSort, List.mem_filter, (order.perm rows).mem_iff]
  have sorted := List.pairwise_mergeSort inOrder_trans inOrder_total
    ((order.arrange rows).filter (JobRow.isDue now))
  cases candidates : ((order.arrange rows).filter (JobRow.isDue now)).mergeSort
      (inOrder claimSelection.order) with
  | nil =>
    rw [candidates] at seen
    refine .inl ⟨rfl, fun row member => Bool.eq_false_iff.mpr fun due => ?_⟩
    exact List.not_mem_nil ((seen row).mpr ⟨member, due⟩)
  | cons first rest =>
    rw [candidates] at seen sorted
    obtain ⟨member, due⟩ := (seen first).mp List.mem_cons_self
    refine .inr ⟨first, member, due, fun row hrow hdue => ?_, rfl⟩
    obtain rfl | later := List.mem_cons.mp ((seen row).mpr ⟨hrow, hdue⟩)
    · exact Int.le_refl _
    · obtain early | ⟨same, -⟩ := inOrder_iff.mp ((List.pairwise_cons.mp sorted).1 row later)
      · exact Int.le_of_lt early
      · exact Int.le_of_eq (congrArg Instant.nanos same)

theorem run?_claim (order : RowOrder) (worker : WorkerId) (now until_ : Instant) (batch : Nat)
    (distinct : (rows.map JobRow.jobId).Nodup) :
    let r := Request.claim worker now until_
    (r.query.run? order (r.params batch) rows = some (⟨0, []⟩, rows) ∧
        ∀ row ∈ rows, row.isDue now = false) ∨
      ∃ first ∈ rows, first.isDue now = true ∧
        (∀ row ∈ rows, row.isDue now = true → first.invisibleUntil ≤ row.invisibleUntil) ∧
        r.query.run? order (r.params batch) rows =
          some (⟨1, [r.rewrite first]⟩, JobRow.put (r.rewrite first) rows) := by
  intro r
  have target (row : JobRow) : isTarget order (r.params batch) rows (.one claimSelection) row =
      ((selected order (r.params batch) rows claimSelection).head? == some row.jobId) := rfl
  obtain ⟨empty, nothing⟩ | ⟨first, member, due, least, chosen⟩ :=
    selected_claim order rows (.uuid worker.id) (.time until_) now
  · refine .inl ⟨run?_update_none fun row _ => (target row).trans ?_, nothing⟩
    exact congrArg (fun ids : List Uuid => ids.head? == some row.jobId) empty
  · refine .inr ⟨first, member, due, least, ?_⟩
    refine run?_update_one distinct member (fun row hrow => ?_) rfl rfl
    have same : isTarget order (r.params batch) rows (.one claimSelection) row =
        (some first.jobId == some row.jobId) :=
      (target row).trans (congrArg (fun ids : List Uuid => ids.head? == some row.jobId) chosen)
    refine (iff_of_eq (congrArg (· = true) same)).trans ?_
    rw [beq_iff_eq, Option.some_inj]
    exact ⟨fun h => List.inj_on_of_nodup_map distinct hrow member h.symm,
      fun h => (congrArg JobRow.jobId h).symm⟩

theorem run?_claim_none {worker : WorkerId} {now until_ : Instant} (batch : Nat)
    (distinct : (rows.map JobRow.jobId).Nodup) (nothing : ∀ row ∈ rows, row.isDue now = false) :
    (Request.claim worker now until_).query.run? order
      ((Request.claim worker now until_).params batch) rows = some (⟨0, []⟩, rows) := by
  obtain ⟨runs, -⟩ | ⟨first, member, due, -⟩ := run?_claim order worker now until_ batch distinct
  · exact runs
  · cases due.symm.trans (nothing first member)

theorem run?_claim_one {worker : WorkerId} {now until_ : Instant} (batch : Nat) {first : JobRow}
    (distinct : (rows.map JobRow.jobId).Nodup) (member : first ∈ rows)
    (due : first.isDue now = true)
    (least : ∀ row ∈ rows, row.isDue now = true → row.invisibleUntil ≤ first.invisibleUntil →
      row = first) :
    let r := Request.claim worker now until_
    r.query.run? order (r.params batch) rows =
      some (⟨1, [r.rewrite first]⟩, JobRow.put (r.rewrite first) rows) := by
  obtain ⟨-, nothing⟩ | ⟨row, hrow, hdue, before, runs⟩ :=
    run?_claim order worker now until_ batch distinct
  · cases due.symm.trans (nothing first member)
  · obtain rfl := least row hrow hdue (before first member due)
    exact runs

theorem run?_insert {id : Uuid} (payload : Payload) (due : Instant) (batch : Nat)
    (fresh : ∀ row ∈ rows, row.jobId ≠ id) :
    (Request.schedule id payload due).query.run? order
      ((Request.schedule id payload due).params batch) rows =
        some (⟨1, []⟩, rows ++ [JobRow.ofJob (.new id payload due)]) := by
  have new : (rows.any fun row => row.jobId == id) = false :=
    List.any_eq_false.mpr fun row member => by simpa using fresh row member
  change (if (rows.any fun row => row.jobId == id) = true then none
    else some ((⟨1, []⟩ : RowsAnswer), rows ++ [JobRow.ofJob (.new id payload due)])) = _
  rw [new]
  rfl

/-! The rows that a prune takes. -/

def pruneSelection : Selection where
  conditions := [.hasStatus [.completed, .failed], .below .invisibleUntil (.param 1)]
  order := []
  limit := .param 2

theorem holdsAll_prune (cutoff : Instant) (batch : SqlValue) (row : JobRow) :
    holdsAll [.time cutoff, batch] pruneSelection.conditions row = row.isPrunable cutoff := by
  simp [pruneSelection, holdsAll, holds, value, JobRow.get, SqlValue.equals, SqlValue.before,
    JobRow.isPrunable, JobRow.isFinished]

theorem selected_prune (order : RowOrder) (rows : List JobRow) (cutoff : Instant) (batch : Nat) :
    ∃ candidates : List JobRow, candidates.Perm (rows.filter (JobRow.isPrunable cutoff)) ∧
      selected order [.time cutoff, .number batch] rows pruneSelection =
        (candidates.take batch).map JobRow.jobId := by
  have conditions : holdsAll [.time cutoff, .number batch] pruneSelection.conditions =
      JobRow.isPrunable cutoff := funext (holdsAll_prune cutoff _)
  refine ⟨_, (List.mergeSort_perm _ (inOrder pruneSelection.order)).trans
    ((order.perm rows).filter _), ?_⟩
  rw [selected, conditions]
  rfl

theorem run?_prune_batch (order : RowOrder) (cutoff : Instant) (batch : Nat)
    (distinct : (rows.map JobRow.jobId).Nodup) :
    ∃ gone : JobRow → Bool,
      (Request.prune cutoff).query.run? order ((Request.prune cutoff).params batch) rows =
        some (⟨rows.countP gone, []⟩, rows.filter fun row => !gone row) ∧
      rows.countP gone = min batch (rows.countP (JobRow.isPrunable cutoff)) ∧
      ∀ row ∈ rows, gone row = true → row.isPrunable cutoff = true := by
  obtain ⟨candidates, perm, chosen⟩ := selected_prune order rows cutoff batch
  let ids := (candidates.take batch).map JobRow.jobId
  have among {row : JobRow} (h : row ∈ candidates.take batch) :
      row ∈ rows ∧ row.isPrunable cutoff = true :=
    List.mem_filter.mp (perm.mem_iff.mp (List.mem_of_mem_take h))
  refine ⟨fun row => ids.contains row.jobId, ?_, ?_, fun row member gone => ?_⟩
  · simp only [ids, ← chosen]
    rfl
  · -- The rows that are deleted are those with the selected identifiers.
    have nodup : ids.Nodup := by
      have all : (candidates.map JobRow.jobId).Nodup :=
        (perm.map _).nodup_iff.mpr (distinct.sublist (List.filter_sublist.map _))
      exact all.sublist ((List.take_sublist batch candidates).map _)
    have same : ((rows.map JobRow.jobId).filter ids.contains).Perm ids := by
      refine (List.perm_ext_iff_of_nodup (distinct.filter _) nodup).mpr fun id => ?_
      rw [List.mem_filter, List.contains_iff_mem]
      refine and_iff_right_of_imp fun selected => ?_
      obtain ⟨row, taken, rfl⟩ := List.mem_map.mp selected
      exact List.mem_map_of_mem (among taken).1
    calc rows.countP (fun row => ids.contains row.jobId)
        = ((rows.map JobRow.jobId).filter ids.contains).length := by
          rw [← List.countP_eq_length_filter, List.countP_map]
          rfl
      _ = min batch (rows.countP (JobRow.isPrunable cutoff)) := by
          rw [same.length_eq, List.length_map, List.length_take, perm.length_eq,
            ← List.countP_eq_length_filter]
  · obtain ⟨other, taken, same⟩ := List.mem_map.mp (List.contains_iff_mem.mp gone)
    obtain ⟨known, prunable⟩ := among taken
    rwa [← List.inj_on_of_nodup_map distinct known member same]

theorem run?_prune (cutoff : Instant) (batch : Nat) (distinct : (rows.map JobRow.jobId).Nodup) :
    ∃ affected, ∃ gone : JobRow → Bool,
      (Request.prune cutoff).query.run? order ((Request.prune cutoff).params batch) rows =
        some (⟨affected, []⟩, rows.filter fun row => !gone row) ∧
      ∀ row ∈ rows, gone row = true → row.isFinished = true ∧ row.invisibleUntil < cutoff := by
  obtain ⟨gone, runs, -, old⟩ := run?_prune_batch order cutoff batch distinct
  exact ⟨_, gone, runs, fun row member h => JobRow.isPrunable_iff.mp (old row member h)⟩

end Query
end DelayedJobs
