import DelayedJobs.Proofs.Store.Leases

/-!
Calls about different jobs. A call that is up to the holder of a job reads and writes that job and
its entries in the index, and nothing else. So calls that are each about a job of their own do not
see each other, and the state they lead to is the same in any order. All that this needs of a state
is an index in order, which no request disturbs.
-/

namespace DelayedJobs
open ScanStore (key)

namespace Store.Request

def target? (r : Request) : Option Uuid := r.caller?.map Prod.snd

def consent : Request → Answer
  | keep _ _ _ => .kept true
  | _ => .done

theorem exists_caller {r : Request} {id : Uuid} (target : r.target? = some id) :
    ∃ worker, r.caller? = some (worker, id) := by
  obtain ⟨⟨worker, _⟩, caller, rfl⟩ := Option.map_eq_some_iff.mp target
  exact ⟨worker, caller⟩

theorem target?_of_caller {r : Request} {worker : WorkerId} {id : Uuid}
    (caller : r.caller? = some (worker, id)) : r.target? = some id := by
  rw [target?, caller, Option.map_some]

theorem id_outcome {r : Request} {old new : Job} (h : new ∈ r.outcome old) : new.id = old.id := by
  cases r with
  | keep | retry =>
    cases h
    rfl
  | schedule | claim | complete | forget | prune => cases h

end Store.Request

namespace MemoryStore
open Store (Request Answer)
variable {s t : MemoryStore}

/-! One job put in order, jobs and index. -/

/-- Leaves `new`, if that is a job, in the place of `old`, in the index too. -/
def settle (s : MemoryStore) (old : Job) : Option Job → MemoryStore
  | some new => s.replace old new
  | none => s.discard old

theorem jobs_settle {old : Job} {new : Option Job} (same : ∀ job ∈ new, job.id = old.id) :
    (s.settle old new).jobs = s.jobs.filterMap fun j => if j.id = old.id then new else some j := by
  cases new with
  | none =>
    rw [settle, discard, ← List.filterMap_eq_filter]
    refine List.filterMap_congr fun j _ => ?_
    simp [Option.guard]
  | some new =>
    rw [settle, replace, update, requeue, ← List.filterMap_eq_map]
    refine List.filterMap_congr fun j _ => ?_
    simp only [same new rfl, Function.comp_apply]
    split <;> rfl

theorem mem_queue_settle (ordered : DueEntry.Ordered s.queue) {old : Job} {new : Option Job}
    (same : ∀ job ∈ new, job.id = old.id) {e : DueEntry} :
    e ∈ (s.settle old new).queue ↔ new.map key = some e ∨ e ≠ key old ∧ e ∈ s.queue := by
  cases new with
  | none => simpa [settle, discard] using ordered.mem_erase
  | some new =>
    rw [settle, replace, update, requeue, DueEntry.mem_insert, ordered.mem_erase]
    simp [key, same new rfl, eq_comm]

theorem ordered_settle (ordered : DueEntry.Ordered s.queue) (old : Job) (new : Option Job) :
    DueEntry.Ordered (s.settle old new).queue := by
  cases new with
  | none => exact ordered.erase _
  | some new => exact (ordered.erase _).insert _

theorem get?_of_held? {worker : WorkerId} {id : Uuid} {job : Job}
    (held : s.held? worker id = some job) : s.get? id = some job :=
  (Option.filter_eq_some_iff.mp held).1

theorem id_of_held? {worker : WorkerId} {id : Uuid} {job : Job}
    (held : s.held? worker id = some job) : job.id = id :=
  id_of_get? (get?_of_held? held)

theorem get?_settle {old : Job} (found : s.get? old.id = some old) {new : Option Job}
    (same : ∀ job ∈ new, job.id = old.id) (id : Uuid) :
    (s.settle old new).get? id = if id = old.id then new else s.get? id := by
  cases new with
  | none => exact get?_discard old id
  | some new => exact get?_replace found (same new rfl) id

theorem key_ne_of_id {old : Job} {new : Option Job} (same : ∀ job ∈ new, job.id = old.id)
    {e : DueEntry} (ne : e.2 ≠ old.id) : new.map key ≠ some e := by
  intro eq
  obtain ⟨job, hjob, rfl⟩ := Option.map_eq_some_iff.mp eq
  exact ne (same job hjob)

theorem settle_comm (ordered : DueEntry.Ordered s.queue) {a b : Job} (ne : a.id ≠ b.id)
    {a' b' : Option Job} (ha : ∀ job ∈ a', job.id = a.id) (hb : ∀ job ∈ b', job.id = b.id) :
    (s.settle a a').settle b b' = (s.settle b b').settle a a' := by
  have jobs : ((s.settle a a').settle b b').jobs = ((s.settle b b').settle a a').jobs := by
    rw [jobs_settle hb, jobs_settle ha, jobs_settle ha, jobs_settle hb, List.filterMap_filterMap,
      List.filterMap_filterMap]
    refine List.filterMap_congr fun j _ => ?_
    -- What is left of either job keeps its identifier, so the other step passes it by.
    cases a' <;> cases b' <;> grind
  have queue : ((s.settle a a').settle b b').queue = ((s.settle b b').settle a a').queue := by
    have orderedA := ordered_settle ordered a a'
    have orderedB := ordered_settle ordered b b'
    have apartA : a'.map key ≠ some (key b) := key_ne_of_id ha ne.symm
    have apartB : b'.map key ≠ some (key a) := key_ne_of_id hb ne
    refine (ordered_settle orderedA b b').eq_of_mem_iff (ordered_settle orderedB a a') fun e => ?_
    rw [mem_queue_settle orderedA hb, mem_queue_settle ordered ha, mem_queue_settle orderedB ha,
      mem_queue_settle ordered hb]
    grind
  exact congrArg₂ MemoryStore.mk jobs queue

/-! One call. -/

/-- A call by the holder puts its job in order; one by anyone else changes nothing. -/
theorem apply_eq_settle {r : Request} {worker : WorkerId} {id : Uuid}
    (caller : r.caller? = some (worker, id)) :
    s.apply r = match s.held? worker id with
      | none => (r.refusal, s)
      | some old => (r.consent, s.settle old (r.outcome old)) := by
  cases r with
  | schedule | claim | prune => cases caller
  | keep _ job | complete _ job | retry _ job | forget _ job =>
    cases caller
    simp only [apply, keep, remove, retry]
    cases held : s.held? worker job.id with
    | none => rfl
    | some old => rw [← id_of_held? held]; rfl

theorem ordered_claim (ordered : DueEntry.Ordered s.queue) (worker : WorkerId)
    (now until_ : Instant) : DueEntry.Ordered (s.claim worker now until_).2.queue := by
  cases queue : s.queue with
  | nil =>
    simp only [claim, queue]
    exact .nil
  | cons first rest =>
    have moved (id : Uuid) (due : Instant) : DueEntry.Ordered (s.requeue id due until_).queue :=
      (ordered.erase _).insert _
    simp only [claim, queue]
    split
    · exact ordered
    · split
      · exact (moved _ _).erase _
      · exact moved _ _

theorem ordered_apply (ordered : DueEntry.Ordered s.queue) (r : Request) :
    DueEntry.Ordered (s.apply r).2.queue := by
  cases r with
  | schedule id payload due => exact ordered.insert _
  | claim worker now until_ => exact ordered_claim ordered worker now until_
  | prune => exact ordered
  | keep | complete | retry | forget =>
    rw [apply_eq_settle rfl]
    split
    · exact ordered
    · exact ordered_settle ordered _ _

theorem ordered_run (ordered : DueEntry.Ordered s.queue) (requests : List Request) :
    DueEntry.Ordered (s.run requests).2.queue := by
  induction requests generalizing s with
  | nil => exact ordered
  | cons r rest ih => exact ih (ordered_apply ordered r)

/-- Two states have the same of a job: the job itself, and its entries in the index. -/
structure SameOn (id : Uuid) (s t : MemoryStore) : Prop where
  job : s.get? id = t.get? id
  dues : ∀ due, (due, id) ∈ s.queue ↔ (due, id) ∈ t.queue

theorem SameOn.refl (id : Uuid) (s : MemoryStore) : SameOn id s s := ⟨rfl, fun _ => .rfl⟩

theorem SameOn.trans {id : Uuid} {u : MemoryStore} (h : SameOn id s t) (h' : SameOn id t u) :
    SameOn id s u :=
  ⟨h.job.trans h'.job, fun due => (h.dues due).trans (h'.dues due)⟩

theorem SameOn.held? {id : Uuid} (h : SameOn id s t) (worker : WorkerId) :
    s.held? worker id = t.held? worker id := by
  rw [MemoryStore.held?, h.job, MemoryStore.held?]

theorem sameOn_apply_of_ne (ordered : DueEntry.Ordered s.queue) {r : Request} {id other : Uuid}
    (target : r.target? = some other) (ne : id ≠ other) : SameOn id (s.apply r).2 s := by
  obtain ⟨worker, caller⟩ := Request.exists_caller target
  rw [apply_eq_settle caller]
  cases held : s.held? worker other with
  | none => exact .refl id s
  | some old =>
    have found := get?_of_held? held
    obtain rfl := id_of_get? found
    have same : ∀ job ∈ r.outcome old, job.id = old.id := fun _ => Request.id_outcome
    constructor
    · rw [get?_settle found same, if_neg ne]
    · intro due
      have unlisted := key_ne_of_id (e := (due, id)) same ne
      have other : (due, id) ≠ key old := fun eq => ne (congrArg Prod.snd eq)
      rw [mem_queue_settle ordered same, or_iff_right unlisted, and_iff_right other]

theorem SameOn.apply {id : Uuid} (h : SameOn id s t) (hs : DueEntry.Ordered s.queue)
    (ht : DueEntry.Ordered t.queue) {r : Request} (target : r.target? = some id) :
    (s.apply r).1 = (t.apply r).1 ∧ SameOn id (s.apply r).2 (t.apply r).2 := by
  obtain ⟨worker, caller⟩ := Request.exists_caller target
  rw [apply_eq_settle caller, apply_eq_settle caller, ← h.held? worker]
  cases held : s.held? worker id with
  | none => exact ⟨rfl, h⟩
  | some old =>
    have found := get?_of_held? held
    obtain rfl := id_of_get? found
    have same : ∀ job ∈ r.outcome old, job.id = old.id := fun _ => Request.id_outcome
    refine ⟨rfl, ?_, fun due => ?_⟩
    · rw [get?_settle found same, get?_settle (h.job ▸ found) same, if_pos rfl, if_pos rfl]
    · rw [mem_queue_settle hs same, mem_queue_settle ht same, h.dues]

theorem get?_apply {r : Request} {worker : WorkerId} {id : Uuid}
    (caller : r.caller? = some (worker, id)) :
    (s.apply r).2.get? id = (s.held? worker id).elim (s.get? id) r.outcome := by
  rw [apply_eq_settle caller]
  cases held : s.held? worker id with
  | none => rfl
  | some old =>
    have found := get?_of_held? held
    obtain rfl := id_of_get? found
    exact (get?_settle found (fun _ => Request.id_outcome) old.id).trans (if_pos rfl)

theorem apply_comm (ordered : DueEntry.Ordered s.queue) {a b : Request} {i j : Uuid}
    (ha : a.target? = some i) (hb : b.target? = some j) (ne : i ≠ j) :
    ((s.apply a).2.apply b).2 = ((s.apply b).2.apply a).2 := by
  obtain ⟨v, callerA⟩ := Request.exists_caller ha
  obtain ⟨w, callerB⟩ := Request.exists_caller hb
  have heldA := (sameOn_apply_of_ne ordered hb ne).held? v
  have heldB := (sameOn_apply_of_ne ordered ha ne.symm).held? w
  rw [apply_eq_settle (s := (s.apply a).2) callerB, apply_eq_settle (s := (s.apply b).2) callerA,
    heldA, heldB, apply_eq_settle callerA, apply_eq_settle callerB]
  cases holdsA : s.held? v i with
  | none => rfl
  | some old =>
    cases holdsB : s.held? w j with
    | none => rfl
    | some old' =>
      obtain rfl := id_of_held? holdsA
      obtain rfl := id_of_held? holdsB
      exact settle_comm ordered ne (fun _ => Request.id_outcome) fun _ => Request.id_outcome

/-! Calls one after the other. -/

/-- Calls that are up to the holders of jobs, no two about one job. -/
structure Independent (calls : List Request) : Prop where
  targeted : ∀ r ∈ calls, r.target?.isSome = true
  apart : calls.Pairwise fun a b => a.target? ≠ b.target?

theorem Independent.perm {calls order : List Request} (h : Independent calls)
    (perm : order.Perm calls) : Independent order where
  targeted r hr := h.targeted r (perm.subset hr)
  apart := perm.symm.pairwise h.apart fun ne => ne.symm

theorem Independent.of_cons {r : Request} {rest : List Request} (h : Independent (r :: rest)) :
    ∃ id, r.target? = some id ∧ (∀ other ∈ rest, other.target? ≠ some id) ∧ Independent rest := by
  obtain ⟨about, targeted⟩ := List.forall_mem_cons.mp h.targeted
  obtain ⟨id, target⟩ := Option.isSome_iff_exists.mp about
  obtain ⟨first, apart⟩ := List.pairwise_cons.mp h.apart
  exact ⟨id, target, fun other hother => target ▸ (first other hother).symm, targeted, apart⟩

structure AsIfAlone (s : MemoryStore) (calls : List Request) (answers : List Answer)
    (after : MemoryStore) : Prop where
  answers : answers = calls.map fun r => (s.apply r).1
  own : ∀ r ∈ calls, ∀ id, r.target? = some id → SameOn id after (s.apply r).2
  others : ∀ id, (∀ r ∈ calls, r.target? ≠ some id) → SameOn id after s

theorem Independent.asIfAlone {calls : List Request} (h : Independent calls)
    (ordered : DueEntry.Ordered s.queue) : AsIfAlone s calls (s.run calls).1 (s.run calls).2 := by
  induction calls generalizing s with
  | nil => exact ⟨rfl, by simp, fun id _ => .refl id s⟩
  | cons r rest ih =>
    obtain ⟨id, target, elsewhere, independent⟩ := h.of_cons
    have next := ih independent (ordered_apply ordered r)
    -- To a later call the store looks as it did before the first one.
    have unseen : ∀ other ∈ rest, ∀ i, other.target? = some i →
        ((s.apply r).2.apply other).1 = (s.apply other).1 ∧
          SameOn i ((s.apply r).2.apply other).2 (s.apply other).2 := by
      intro other hother i about
      have ne : i ≠ id := fun eq => elsewhere other hother (eq ▸ about)
      exact (sameOn_apply_of_ne ordered target ne).apply (ordered_apply ordered r) ordered about
    refine ⟨?_, ?_, ?_⟩
    · rw [List.map_cons]
      refine congrArg _ (next.answers.trans (List.map_congr_left fun other hother => ?_))
      obtain ⟨i, about⟩ := Option.isSome_iff_exists.mp (independent.targeted other hother)
      exact (unseen other hother i about).1
    · intro call hcall i about
      obtain rfl | hother := List.mem_cons.mp hcall
      · obtain rfl : id = i := Option.some.inj (target.symm.trans about)
        exact next.others id elsewhere
      · exact (next.own call hother i about).trans (unseen call hother i about).2
    · intro i untouched
      obtain ⟨first, later⟩ := List.forall_mem_cons.mp untouched
      have ne : i ≠ id := fun eq => first (eq ▸ target)
      exact (next.others i later).trans (sameOn_apply_of_ne ordered target ne)

theorem Independent.run_perm {calls order : List Request} (h : Independent calls)
    (perm : order.Perm calls) (ordered : DueEntry.Ordered s.queue) :
    (s.run order).2 = (s.run calls).2 := by
  -- On the permutation: a swap needs the index in order, and the calls before it keep it so.
  induction perm generalizing s with
  | nil => rfl
  | cons r _ ih =>
    obtain ⟨-, -, -, rest⟩ := h.of_cons
    exact ih rest (ordered_apply ordered r)
  | swap a b rest =>
    obtain ⟨i, first, elsewhere, tail⟩ := h.of_cons
    obtain ⟨j, second, -⟩ := tail.of_cons
    have ne : j ≠ i := fun eq => elsewhere b List.mem_cons_self (eq ▸ second)
    exact congrArg (fun s : MemoryStore => (s.run rest).2) (apply_comm ordered second first ne)
  | trans _ later first second => exact (first (h.perm later) ordered).trans (second h ordered)

/-- After any history, calls that are up to the holders of jobs, no two about one job, lead to the
same state in whatever order they come, jobs and index alike, and each is answered the same. It gets
the answer that it would get first, and leaves its job and the index for it as if there were no
other call: it does what it says if its worker held the job before all of them, and nothing
otherwise. Jobs that none of them is about stay as they are. -/
theorem independent_calls_commute (history calls order : List Request)
    (independent : Independent calls) (reordered : order.Perm calls) :
    let s := (run {} history).2
    (s.run order).2 = (s.run calls).2 ∧
      (order.zip (s.run order).1).Perm (calls.zip (s.run calls).1) ∧
      (s.run order).1 = order.map (fun r => (s.apply r).1) ∧
      (∀ r ∈ calls, ∀ worker id, r.caller? = some (worker, id) →
        SameOn id (s.run order).2 (s.apply r).2 ∧
        (s.run order).2.get? id = (s.held? worker id).elim (s.get? id) r.outcome) ∧
      ∀ id, (∀ r ∈ calls, r.target? ≠ some id) → SameOn id (s.run order).2 s := by
  intro s
  have ordered : DueEntry.Ordered s.queue := ordered_run coherent_empty.ordered history
  have same := independent.run_perm reordered ordered
  have alone := independent.asIfAlone ordered
  have answers := ((independent.perm reordered).asIfAlone ordered).answers
  rw [same]
  refine ⟨rfl, ?_, answers, fun r hr worker id caller => ?_, alone.others⟩
  · rw [answers, alone.answers, ← List.map_prod_left_eq_zip, ← List.map_prod_left_eq_zip]
    exact reordered.map _
  · have own := alone.own r hr id (Request.target?_of_caller caller)
    exact ⟨own, own.job.trans (get?_apply caller)⟩

def threeLeases : List Request :=
  let mail : Payload := ⟨"mail", .null⟩
  [.schedule (.ofNat 1) mail .epoch, .schedule (.ofNat 2) mail .epoch,
    .schedule (.ofNat 3) mail .epoch, .claim ⟨.ofNat 7⟩ .epoch (.nearest 1),
    .claim ⟨.ofNat 8⟩ .epoch (.nearest 5), .claim ⟨.ofNat 9⟩ .epoch (.nearest 5)]

def callsAtOnce : List Request :=
  let job (n : Nat) : Job := .new (.ofNat n) ⟨"mail", .null⟩ .epoch
  [.keep ⟨.ofNat 7⟩ (job 1) (.nearest 5), .retry ⟨.ofNat 8⟩ (job 2) (.nearest 5),
    .complete ⟨.ofNat 9⟩ (job 3) .epoch, .forget ⟨.ofNat 7⟩ (job 4) .epoch]

theorem callsAtOnce_commute :
    Independent callsAtOnce ∧ callsAtOnce.reverse.Perm callsAtOnce ∧
      let s := (run {} threeLeases).2
      (s.run callsAtOnce.reverse).2 = (s.run callsAtOnce).2 ∧
        (s.run callsAtOnce.reverse).2.queue = [(.nearest 5, .ofNat 1), (.nearest 5, .ofNat 2)] ∧
        (s.run callsAtOnce.reverse).1 = [.done, .done, .done, .kept true] := by
  have independent : Independent callsAtOnce := ⟨by decide, by decide⟩
  have reversed : callsAtOnce.reverse.Perm callsAtOnce := List.reverse_perm callsAtOnce
  obtain ⟨state, -, answers, -⟩ := independent_calls_commute threeLeases callsAtOnce
    callsAtOnce.reverse independent reversed
  exact ⟨independent, reversed, state, by decide, answers.trans rfl⟩

end MemoryStore
end DelayedJobs
