import DelayedJobs.Proofs.Scheduler.Poller
import Mathlib.Data.Nat.Init
import Mathlib.Data.Nat.Find
import Mathlib.Tactic.Choose

/-!
One job in the hands of a worker, from the claim to the last call. The deeds of the worker are
logged, the latest first. Whatever the handler, the renewals and the shutdown do, and in whatever
order the tasks go on, the log agrees with the phase of the worker; and once the handler has ended,
a worker whose tasks are not left standing comes to its decision.
-/

namespace DelayedJobs

namespace Lease.Phase

def ending? : Phase → Option Ending
  | ended ending => some ending
  | _ => none

theorem isSome_ending? (lease : Phase) : lease.ending?.isSome = lease.isEnded := by
  cases lease <;> rfl

theorem hijacked_iff {lease : Phase} : lease.hijacked = true ↔ lease.ending? = some .lost := by
  cases lease with
  | ended ending => cases ending <;> simp [hijacked, ending?]
  | _ => simp [hijacked, ending?]

end Lease.Phase

namespace Poller

inductive Deed where
  | started (job : Job)
  | ended (job : Job) (r : HandlerResult)
  | renewed (r : Lease.Renewal)
  | upkeepEnded (ending : Lease.Ending)
  | called (job : Job) (call : Finalization)
  | dropped (job : Job) (call : Finalization)

namespace Deed

def start? : Deed → Option Job
  | started job => some job
  | _ => none

def end? : Deed → Option (Job × HandlerResult)
  | ended job r => some (job, r)
  | _ => none

def renewal? : Deed → Option Lease.Renewal
  | renewed r => some r
  | _ => none

def ending? : Deed → Option Lease.Ending
  | upkeepEnded ending => some ending
  | _ => none

def call? : Deed → Option (Job × Finalization)
  | called job call => some (job, call)
  | _ => none

end Deed

def Phase.atWork? : Phase → Option Job
  | running { job, result := none, .. } => some job
  | _ => none

def handlerDeeds (p q : Phase) : List Deed :=
  match p.atWork?, q.atWork?, q with
  | none, some job, _ => [.started job]
  | some job, none, .running { result := some r, .. } => [.ended job r]
  | _, _, _ => []

def leaseDeeds (lease : Lease.Phase) (e : Lease.Event) : List Deed :=
  lease.ending?.toList.map .upkeepEnded ++
    match e with
    | .answer r => [.renewed r]
    | _ => []

def deedsOf (p q : Phase) : Event → List Deed
  | .lease e =>
    match q with
    | .running run => leaseDeeds run.lease e
    | _ => []
  | .conclude =>
    match q with
    | .finalizing job call => [.called job call]
    | _ => []
  | .finalized .done => []
  | .finalized _ =>
    match p with
    | .finalizing job call => [.dropped job call]
    | _ => []
  | _ => handlerDeeds p q

structure Tick where
  now : Nat
  shutdown : Bool
  event : Event

def Tick.context (t : Tick) (settings : Settings) (clock : Clock) : Context where
  settings := settings
  clock := clock
  shutdown := t.shutdown
  now := t.now

section Runs
variable (settings : Settings) (clock : Clock)

def tick? (p : Phase) (t : Tick) : Option Phase := step (t.context settings clock) p t.event

def run? (p : Phase) : List Tick → Option Phase
  | [] => some p
  | t :: rest => (tick? settings clock p t).bind fun q => run? q rest

def deeds (p : Phase) : List Tick → List Deed
  | [] => []
  | t :: rest =>
    match tick? settings clock p t with
    | some q => deeds q rest ++ deedsOf p q t.event
    | none => []

end Runs

/-- What the log says of a job in process: how its handler has ended, if it has, and the upkeep of
its lease. -/
structure Underway (job : Job) (result : Option HandlerResult) (ending : Option Lease.Ending)
    (log : List Deed) : Prop where
  starts : log.filterMap Deed.start? = [job]
  ends : log.filterMap Deed.end? = (result.map fun r => (job, r)).toList
  endings : log.filterMap Deed.ending? = ending.toList
  lost : .lost ∈ log.filterMap Deed.renewal? ↔ ending = some .lost
  calls : log.filterMap Deed.call? = []

/-- The lease was kept, and then one call was made that fits the end of the handler. -/
def Called (settings : Settings) (job : Job) (call : Finalization) (log : List Deed) : Prop :=
  ∃ after before r ending instant, log = after ++ .called job call :: before ∧
    (∀ d ∈ after, d = .dropped job call) ∧ Underway job (some r) (some ending) before ∧
    ending ≠ .lost ∧ call = finalization settings instant job (some r == some HandlerResult.ok)

def Tells (settings : Settings) (job : Job) (log : List Deed) : Phase → Prop
  | .running run => run.job = job ∧ (run.finished = true → run.result.isSome = true) ∧
      Underway job run.result run.lease.ending? log
  | .finalizing held call => held = job ∧ Called settings job call log
  | .checking =>
    (∃ r, Underway job (some r) (some .lost) log) ∨ ∃ call, Called settings job call log
  | .panicked => ∃ call, Called settings job call log
  | .claiming _ _ | .resting _ | .stopped => False

variable {settings : Settings} {clock : Clock} {job : Job} {log : List Deed} {p q : Phase}
    {t : Tick}
  {result : Option HandlerResult}

theorem underway_started (job : Job) : Underway job none none [.started job] :=
  ⟨rfl, rfl, rfl, by simp [Deed.renewal?], rfl⟩

theorem Underway.ended {ending : Option Lease.Ending} (h : Underway job none ending log)
    (r : HandlerResult) : Underway job (some r) ending (.ended job r :: log) :=
  ⟨h.starts, congrArg ((job, r) :: ·) h.ends, h.endings, h.lost, h.calls⟩

theorem Underway.renewed (h : Underway job result none log) {r : Lease.Renewal}
    (kept : r ≠ .lost) : Underway job result none (.renewed r :: log) := by
  refine ⟨h.starts, h.ends, h.endings, ?_, h.calls⟩
  rw [← h.lost]
  exact List.mem_cons.trans (or_iff_right kept.symm)

theorem Underway.upkeepEnded (h : Underway job result none log) {ending : Lease.Ending}
    (kept : ending ≠ .lost) : Underway job result (some ending) (.upkeepEnded ending :: log) :=
  ⟨h.starts, h.ends, congrArg (ending :: ·) h.endings, h.lost.trans (by simp [kept]), h.calls⟩

theorem Underway.renewalLost (h : Underway job result none log) :
    Underway job result (some .lost) (.upkeepEnded .lost :: .renewed .lost :: log) :=
  ⟨h.starts, h.ends, congrArg (Lease.Ending.lost :: ·) h.endings,
    iff_of_true List.mem_cons_self rfl, h.calls⟩

theorem Underway.lease {s : Settings} {now : Nat} {lease after : Lease.Phase} {e : Lease.Event}
    (h : Underway job result lease.ending? log)
    (step : Lease.step s clock now lease e = some after) :
    Underway job result after.ending? (leaseDeeds after e ++ log) := by
  have leads := Lease.step_eq_some_iff.mp step
  cases e with
  | wake =>
    obtain ⟨wakeAt, rfl, -, rfl⟩ := leads
    exact h
  | finish =>
    obtain ⟨going, rfl⟩ := leads
    rw [← Lease.Phase.isSome_ending?, Option.isSome_eq_false_iff,
      Option.isNone_iff_eq_none] at going
    rw [going] at h
    exact h.upkeepEnded (by decide)
  | answer r =>
    obtain ⟨⟨since, until_, rfl⟩, rfl⟩ := leads
    cases r with
    | kept | failed => exact h.renewed (by decide)
    | lost => exact h.renewalLost
    | panicked => exact (h.renewed (by decide)).upkeepEnded (by decide)

theorem Called.drop {call : Finalization} (h : Called settings job call log) :
    Called settings job call (.dropped job call :: log) := by
  obtain ⟨after, before, r, ending, instant, rfl, drops, rest⟩ := h
  refine ⟨.dropped job call :: after, before, r, ending, instant, rfl, ?_, rest⟩
  exact List.forall_mem_cons.mpr ⟨rfl, drops⟩

theorem Tells.conclude {run : Run} {c : Context} (h : Tells settings job log (.running run))
    (same : c.settings = settings) (finished : run.finished = true)
    (ended : run.lease.isEnded = true)
    (next : (if run.lease.hijacked then .checking
      else .finalizing run.job
        (finalization c.settings c.instant run.job (run.result == some .ok))) = q) :
    Tells settings job (deedsOf (.running run) q .conclude ++ log) q := by
  obtain ⟨rfl, order, underway⟩ := h
  obtain ⟨r, result⟩ := Option.isSome_iff_exists.mp (order finished)
  rw [← Lease.Phase.isSome_ending?] at ended
  obtain ⟨ending, last⟩ := Option.isSome_iff_exists.mp ended
  rw [result, last] at underway
  split at next
  next hijacked =>
    rw [Lease.Phase.hijacked_iff, last] at hijacked
    cases hijacked
    subst next
    exact .inl ⟨r, underway⟩
  next held =>
    rw [Lease.Phase.hijacked_iff, last] at held
    subst next
    refine ⟨rfl, [], log, r, ending, c.instant, rfl, List.forall_mem_nil _, underway, ?_, ?_⟩
    · rintro rfl
      exact held rfl
    · rw [same, result]

theorem Tells.tick (h : Tells settings job log p) (within : t.event ≠ .go)
    (step : tick? settings clock p t = some q) :
    Tells settings job (deedsOf p q t.event ++ log) q := by
  obtain ⟨now, shutdown, e⟩ := t
  have leads := step_eq_some_iff.mp step
  cases e with
  | go => exact absurd rfl within
  | claimed r =>
    obtain ⟨⟨since, until_, rfl⟩, -⟩ := leads
    exact h.elim
  | wake =>
    obtain ⟨wakeAt, rfl, -⟩ := leads
    exact h.elim
  | cut =>
    obtain ⟨⟨wakeAt, rfl⟩, -⟩ := leads
    exact h.elim
  | handlerEnded r =>
    obtain ⟨⟨held, result, finished, lease⟩, rfl, working, rfl⟩ := leads
    obtain ⟨rfl, order, underway⟩ := h
    cases working
    exact ⟨rfl, fun _ => rfl, underway.ended r⟩
  | finish =>
    obtain ⟨⟨held, result, finished, lease⟩, rfl, ⟨ended, -⟩, rfl⟩ := leads
    obtain ⟨r, rfl⟩ := Option.isSome_iff_exists.mp ended
    obtain ⟨rfl, -, underway⟩ := h
    exact ⟨rfl, fun _ => rfl, underway⟩
  | lease e =>
    obtain ⟨run, rfl, -, lease, upkeep, rfl⟩ := leads
    obtain ⟨rfl, order, underway⟩ := h
    exact ⟨rfl, order, underway.lease upkeep⟩
  | conclude =>
    obtain ⟨run, rfl, ⟨finished, ended⟩, next⟩ := leads
    exact h.conclude rfl finished ended next
  | finalized r =>
    obtain ⟨⟨held, call, rfl⟩, rfl⟩ := leads
    obtain ⟨rfl, called⟩ := h
    cases r with
    | done => exact .inr ⟨call, called⟩
    | failed => exact .inr ⟨call, called.drop⟩
    | panicked => exact ⟨call, called.drop⟩

theorem Tells.run {ticks : List Tick} (h : Tells settings job log p)
    (within : ∀ t ∈ ticks, t.event ≠ .go) (run : run? settings clock p ticks = some q) :
    Tells settings job (deeds settings clock p ticks ++ log) q := by
  induction ticks generalizing p log with
  | nil =>
    cases run
    exact h
  | cons t rest ih =>
    obtain ⟨between, first, later⟩ := Option.bind_eq_some_iff.mp run
    rw [deeds, first, List.append_assoc]
    have next := h.tick (within t List.mem_cons_self) first
    exact ih next (fun t ht => within t (List.mem_cons_of_mem _ ht)) later

/-! Tasks that are not left standing come to an end. -/

/-- A step that the worker or the upkeep of its lease takes by itself. -/
def Event.isOwn : Event → Bool
  | .finish | .lease .finish | .conclude => true
  | _ => false

structure Course (settings : Settings) (clock : Clock) where
  tick : Nat → Option Tick
  phase : Nat → Phase
  next : ∀ n, run? settings clock (phase n) (tick n).toList = some (phase (n + 1))

theorem run?_append (a b : List Tick) :
    run? settings clock p (a ++ b) = (run? settings clock p a).bind (run? settings clock · b) := by
  induction a generalizing p with
  | nil => rfl
  | cons t rest ih =>
    simp only [List.cons_append, run?, Option.bind_assoc]
    exact congrArg _ (funext fun q => ih)

structure Run.Onward (a b : Run) : Prop where
  answered : a.result.isSome = true → b.result.isSome = true
  finished : a.finished = true → b.finished = true
  ended : a.lease.isEnded = true → b.lease.isEnded = true

theorem Run.Onward.trans {a b c : Run} (h : a.Onward b) (h' : b.Onward c) : a.Onward c where
  answered := h'.answered ∘ h.answered
  finished := h'.finished ∘ h.finished
  ended := h'.ended ∘ h.ended

theorem onward_of_tick {a b : Run}
    (step : tick? settings clock (.running a) t = some (.running b)) :
    a.Onward b := by
  obtain ⟨now, shutdown, e⟩ := t
  have leads := step_eq_some_iff.mp step
  cases e with
  | go => exact nomatch leads.1
  | claimed r =>
    obtain ⟨⟨since, until_, claiming⟩, -⟩ := leads
    cases claiming
  | wake =>
    obtain ⟨wakeAt, resting, -⟩ := leads
    cases resting
  | cut =>
    obtain ⟨⟨wakeAt, resting⟩, -⟩ := leads
    cases resting
  | finalized r =>
    obtain ⟨⟨held, call, finalizing⟩, -⟩ := leads
    cases finalizing
  | handlerEnded r =>
    obtain ⟨run, same, -, next⟩ := leads
    cases same
    cases next
    exact ⟨fun _ => rfl, id, id⟩
  | finish =>
    obtain ⟨run, same, -, next⟩ := leads
    cases same
    cases next
    exact ⟨id, fun _ => rfl, id⟩
  | lease e =>
    obtain ⟨run, same, -, lease, upkeep, next⟩ := leads
    cases same
    cases next
    refine ⟨id, id, fun ended => ?_⟩
    have leads := Lease.step_eq_some_iff.mp upkeep
    cases lease' : a.lease with
    | ended ending => cases e <;> simp [Lease.Leads, lease', Lease.Phase.isEnded] at leads
    | resting | renewing =>
      rw [lease'] at ended
      cases ended
  | conclude =>
    obtain ⟨run, same, -, next⟩ := leads
    split at next <;> cases next

def Possible (settings : Settings) (clock : Clock) (p : Phase) (e : Event) : Prop :=
  ∃ t : Tick, t.event = e ∧ (tick? settings clock p t).isSome = true

theorem possible_of_leads {e : Event} (leads : Leads ⟨settings, clock, false, 0⟩ p q e) :
    Possible settings clock p e :=
  ⟨⟨0, false, e⟩, rfl, Option.isSome_of_eq_some (step_eq_some_iff.mpr leads)⟩

namespace Course

/-- No own step stays possible from some point on without being taken. -/
def Fair (c : Course settings clock) : Prop :=
  ∀ e : Event, e.isOwn = true → ∀ n, (∀ m, n ≤ m → Possible settings clock (c.phase m) e) →
    ∃ m, n ≤ m ∧ ∃ t, c.tick m = some t ∧ t.event = e

def ticks (c : Course settings clock) (n : Nat) : List Tick := (List.range n).filterMap c.tick

variable {c : Course settings clock}

theorem run?_ticks (n : Nat) : run? settings clock (c.phase 0) (c.ticks n) = some (c.phase n) := by
  induction n with
  | zero => rfl
  | succ n ih =>
    have last : [n].filterMap c.tick = (c.tick n).toList := by cases h : c.tick n <;> simp [h]
    rw [ticks, List.range_succ, List.filterMap_append, run?_append, ← ticks, ih, last]
    exact c.next n

theorem tick?_eq {n : Nat} (h : c.tick n = some t) :
    tick? settings clock (c.phase n) t = some (c.phase (n + 1)) := by
  have next := c.next n
  rw [h] at next
  obtain ⟨q, moves, rest⟩ := Option.bind_eq_some_iff.mp next
  rw [moves, ← rest]
  rfl

theorem Fair.eventually (fair : c.Fair) {e : Event} (own : e.isOwn = true) {P : Nat → Prop}
    {n : Nat} (possible : ∀ m, n ≤ m → ¬P m → Possible settings clock (c.phase m) e)
    (takes : ∀ m t, t.event = e → tick? settings clock (c.phase m) t = some (c.phase (m + 1)) →
      P (m + 1)) : ∃ m, n ≤ m ∧ P m := by
  by_contra never
  have before : ∀ m, n ≤ m → ¬P m := fun m later holds => never ⟨m, later, holds⟩
  obtain ⟨m, later, t, taken, event⟩ :=
    fair e own n fun m later => possible m later (before m later)
  exact before (m + 1) (Nat.le_succ_of_le later) (takes m t event (tick?_eq taken))

theorem onward {run : Nat → Run} (running : ∀ n, c.phase n = .running (run n)) {m n : Nat}
    (h : m ≤ n) : (run m).Onward (run n) := by
  induction n, h using Nat.le_induction with
  | base => exact ⟨id, id, id⟩
  | succ n _ ih =>
    refine ih.trans ?_
    cases happens : c.tick n with
    | none =>
      have next := c.next n
      rw [happens, running n, running (n + 1)] at next
      rw [Phase.running.inj (Option.some.inj next)]
      exact ⟨id, id, id⟩
    | some t =>
      have moves := tick?_eq happens
      rw [running n, running (n + 1)] at moves
      exact onward_of_tick moves

/-- When the handler has ended the worker sees it, then the upkeep ends, then the worker decides. -/
theorem Fair.leaves (fair : c.Fair) {run : Run} (start : c.phase 0 = .running run)
    (answered : run.result.isSome = true) : ∃ n, ∀ run, c.phase n ≠ .running run := by
  by_contra never
  have always : ∀ n, ∃ run, c.phase n = .running run := by simpa using never
  choose run' running using always
  have first : run' 0 = run := Phase.running.inj ((running 0).symm.trans start)
  have done (n : Nat) : (run' n).result.isSome = true :=
    (onward running (Nat.zero_le n)).answered (first ▸ answered)
  obtain ⟨seen, -, finished⟩ : ∃ n, 0 ≤ n ∧ (run' n).finished = true := by
    refine fair.eventually (e := .finish) rfl (fun m _ unseen => ?_) fun m t event moves => ?_
    · exact possible_of_leads
        ⟨run' m, running m, ⟨done m, Bool.eq_false_iff.mpr unseen⟩, rfl⟩
    · have leads := step_eq_some_iff.mp moves
      rw [event] at leads
      obtain ⟨run, same, ended, next⟩ := leads
      rw [← Phase.running.inj (next.trans (running (m + 1)))]
  have knows (n : Nat) (later : seen ≤ n) : (run' n).finished = true :=
    (onward running later).finished finished
  obtain ⟨settled, after, ended⟩ : ∃ n, seen ≤ n ∧ (run' n).lease.isEnded = true := by
    refine fair.eventually (e := .lease .finish) rfl (fun m later going => ?_)
      fun m t event moves => ?_
    · have upkeep : Lease.step settings clock 0 (run' m).lease .finish = some (.ended .held) :=
        Lease.step_eq_some_iff.mpr ⟨Bool.eq_false_iff.mpr going, rfl⟩
      exact possible_of_leads ⟨run' m, running m, fun _ => knows m later, _, upkeep, rfl⟩
    · have leads := step_eq_some_iff.mp moves
      rw [event] at leads
      obtain ⟨run, same, allowed, lease, upkeep, next⟩ := leads
      obtain ⟨-, rfl⟩ := Lease.step_eq_some_iff.mp upkeep
      rw [← Phase.running.inj (next.trans (running (m + 1)))]
      rfl
  obtain ⟨last, -, gone⟩ : ∃ n, settled ≤ n ∧ ∀ run, c.phase n ≠ .running run := by
    refine fair.eventually (e := .conclude) rfl (fun m later _ => ?_) fun m t event moves => ?_
    · exact possible_of_leads ⟨run' m, running m,
        ⟨knows m (Nat.le_trans after later), (onward running later).ended ended⟩, rfl⟩
    · have leads := step_eq_some_iff.mp moves
      rw [event] at leads
      obtain ⟨run, -, -, decision⟩ := leads
      rintro run' concluded
      rw [concluded] at decision
      split at decision <;> cases decision
  exact gone _ (running last)

theorem Fair.leaves_first (fair : c.Fair) {run : Run} (start : c.phase 0 = .running run)
    (answered : run.result.isSome = true) :
    ∃ n, (∀ run, c.phase n ≠ .running run) ∧ ∀ t ∈ c.ticks n, t.event ≠ .go := by
  classical
  have leaves := fair.leaves start answered
  refine ⟨Nat.find leaves, Nat.find_spec leaves, fun t ht event => ?_⟩
  obtain ⟨m, early, taken⟩ := List.mem_filterMap.mp ht
  apply Nat.find_min leaves (List.mem_range.mp early)
  intro run running
  have leads := step_eq_some_iff.mp (tick?_eq taken)
  rw [event, running] at leads
  cases leads.1

end Course

/-! What the worker has decided. -/

/-- One call was made, after the handler and the upkeep of the lease had ended, and it fits the end
of the handler. -/
def FinalizedOnce (settings : Settings) (job : Job) (log : List Deed) : Prop :=
  ∃ after before r ending call, log = after ++ .called job call :: before ∧
    (∀ d ∈ after, d = .dropped job call) ∧ before.filterMap Deed.end? = [(job, r)] ∧
    before.filterMap Deed.ending? = [ending] ∧ before.filterMap Deed.call? = [] ∧
    ((∃ now, call = .complete now) ↔ r = .ok) ∧
    ((∃ due, call = .retry due) ↔ r ≠ .ok ∧ job.attempt < settings.retryLimit) ∧
    ((∃ now, call = .forget now) ↔ r ≠ .ok ∧ settings.retryLimit ≤ job.attempt)

/-- No call for a job that a renewal reported lost, and else one. -/
def Verdict (settings : Settings) (job : Job) (log : List Deed) : Prop :=
  (.lost ∈ log.filterMap Deed.renewal? → log.filterMap Deed.call? = []) ∧
    (.lost ∉ log.filterMap Deed.renewal? → FinalizedOnce settings job log)

theorem finalization_kind (settings : Settings) (instant : Instant) (job : Job)
    (r : HandlerResult) :
    let call := finalization settings instant job (some r == some HandlerResult.ok)
    ((∃ now, call = .complete now) ↔ r = .ok) ∧
    ((∃ due, call = .retry due) ↔ r ≠ .ok ∧ job.attempt < settings.retryLimit) ∧
    ((∃ now, call = .forget now) ↔ r ≠ .ok ∧ settings.retryLimit ≤ job.attempt) := by
  by_cases ok : r = .ok
  · simp [finalization, ok]
  · by_cases more : job.attempt < settings.retryLimit
    · simp [finalization, ok, more]
    · simp [finalization, ok, more, UInt32.not_lt.mp more]

theorem Called.verdict {call : Finalization} (h : Called settings job call log) :
    Verdict settings job log := by
  obtain ⟨after, before, r, ending, instant, rfl, drops, underway, kept, rfl⟩ := h
  refine ⟨fun lost => ?_, fun _ => ⟨after, before, r, ending, _, rfl, drops, underway.ends,
    underway.endings, underway.calls, finalization_kind settings instant job r⟩⟩
  have nothing : after.filterMap Deed.renewal? = [] :=
    List.filterMap_eq_nil_iff.mpr fun d hd => by rw [drops d hd]; rfl
  rw [List.filterMap_append, nothing] at lost
  exact absurd (Option.some.inj (underway.lost.mp lost)) kept

theorem Tells.verdict (h : Tells settings job log p) (left : ∀ run, p ≠ .running run) :
    Verdict settings job log := by
  cases p with
  | running run => exact absurd rfl (left run)
  | claiming | resting | stopped => exact h.elim
  | finalizing held call => exact h.2.verdict
  | panicked =>
    obtain ⟨call, called⟩ := h
    exact called.verdict
  | checking =>
    obtain ⟨r, underway⟩ | ⟨call, called⟩ := h
    · exact ⟨fun _ => underway.calls, fun held => absurd (underway.lost.mpr rfl) held⟩
    · exact called.verdict

theorem Tells.starts (h : Tells settings job log p) : log.filterMap Deed.start? = [job] := by
  have called {call : Finalization} (h : Called settings job call log) :
      log.filterMap Deed.start? = [job] := by
    obtain ⟨after, before, r, ending, instant, rfl, drops, underway, -⟩ := h
    have nothing : after.filterMap Deed.start? = [] :=
      List.filterMap_eq_nil_iff.mpr fun d hd => by rw [drops d hd]; rfl
    rw [List.filterMap_append, nothing]
    exact underway.starts
  cases p with
  | running run => exact h.2.2.starts
  | claiming | resting | stopped => exact h.elim
  | finalizing held call => exact called h.2
  | panicked => exact called h.choose_spec
  | checking =>
    obtain ⟨r, underway⟩ | ⟨call, h⟩ := h
    · exact underway.starts
    · exact called h

theorem tells_claimed {claim : Tick} (claims : claim.event = .claimed (.job job))
    {now until_ : Instant} (moves : tick? settings clock (.claiming now until_) claim = some p) :
    Tells settings job (deedsOf (.claiming now until_) p claim.event) p := by
  have leads := step_eq_some_iff.mp moves
  rw [claims] at leads
  obtain ⟨-, rfl⟩ := leads
  rw [claims]
  exact ⟨rfl, nofun, underway_started job⟩

theorem tells_of_claim {claim : Tick} (claims : claim.event = .claimed (.job job))
    {ticks : List Tick} (within : ∀ t ∈ ticks, t.event ≠ .go) {now until_ : Instant}
    (run : run? settings clock (.claiming now until_) (claim :: ticks) = some p) :
    Tells settings job (deeds settings clock (.claiming now until_) (claim :: ticks)) p := by
  obtain ⟨between, first, later⟩ := Option.bind_eq_some_iff.mp run
  rw [deeds, first]
  exact (tells_claimed claims first).run within later

/-- From the claim of a job until the worker looks for another, whatever happens in whatever order:
the handler is started once; while the job is in process no call is made, and the handler sees its
signal cancelled just when shutdown or a lost lease has cancelled it; when the worker is through it
has made no call if a renewal reported the job lost, and else one that fits. Once the handler has
ended, a worker whose tasks are not left standing gets through. -/
theorem finalized_exactly_once {claim : Tick} (claims : claim.event = .claimed (.job job))
    {ticks : List Tick} (within : ∀ t ∈ ticks, t.event ≠ .go) {now until_ : Instant}
    (run : run? settings clock (.claiming now until_) (claim :: ticks) = some p) :
    let log := deeds settings clock (.claiming now until_)
    (log (claim :: ticks)).filterMap Deed.start? = [job] ∧
    (∀ run, p = .running run → (log (claim :: ticks)).filterMap Deed.call? = [] ∧
      ∀ shutdown, run.cancelled shutdown = true ↔
        shutdown = true ∨ .lost ∈ (log (claim :: ticks)).filterMap Deed.renewal?) ∧
    ((∀ run, p ≠ .running run) → Verdict settings job (log (claim :: ticks))) ∧
    ((log (claim :: ticks)).filterMap Deed.end? ≠ [] →
      ∀ course : Course settings clock, course.phase 0 = p → course.Fair →
        ∃ n, (∀ run, course.phase n ≠ .running run) ∧
          Verdict settings job (log (claim :: (ticks ++ course.ticks n)))) := by
  intro log
  have tells := tells_of_claim claims within run
  refine ⟨tells.starts, ?_, tells.verdict, ?_⟩
  · rintro run rfl
    refine ⟨tells.2.2.calls, fun shutdown => ?_⟩
    rw [Run.cancelled, Bool.or_eq_true, Lease.Phase.hijacked_iff, ← tells.2.2.lost]
  · rintro ended course rfl fair
    obtain ⟨n, left, onward⟩ : ∃ n, (∀ run, course.phase n ≠ .running run) ∧
        ∀ t ∈ course.ticks n, t.event ≠ .go := by
      cases start : course.phase 0 with
      | running run =>
        rw [start] at tells
        have answered : run.result.isSome = true := by
          cases result : run.result with
          | some r => rfl
          | none =>
            have ends := tells.2.2.ends
            rw [result] at ends
            exact absurd ends ended
        exact fair.leaves_first start answered
      | _ => exact ⟨0, by simp [start], by simp [Course.ticks]⟩
    refine ⟨n, left, Tells.verdict (p := course.phase n) (tells_of_claim claims ?_ ?_) left⟩
    · exact List.forall_mem_append.mpr ⟨within, onward⟩
    · rw [← List.cons_append, run?_append, run]
      exact Course.run?_ticks n

def lastTry : Job := { Job.new (.ofNat 1) ⟨"mail", .null⟩ .epoch with attempt := 10 }

def panickedRun : List Tick :=
  [⟨5000000000, false, .lease .wake⟩, ⟨5000000000, true, .lease (.answer .failed)⟩,
    ⟨6000000000, true, .lease .wake⟩, ⟨6000000001, true, .handlerEnded .panicked⟩,
    ⟨6000000001, true, .finish⟩, ⟨6000000002, true, .lease .finish⟩, ⟨7000000000, true, .conclude⟩]

theorem panickedRun_forgets :
    let log := deeds {} ⟨.epoch⟩ (.claiming .epoch .latest)
    let ticks := ⟨0, false, .claimed (.job lastTry)⟩ :: panickedRun
    (∃ p, run? {} ⟨.epoch⟩ (.claiming .epoch .latest) ticks = some p) ∧
      .lost ∉ (log ticks).filterMap Deed.renewal? ∧ FinalizedOnce {} lastTry (log ticks) := by
  intro log ticks
  have through : (run? {} ⟨.epoch⟩ (.claiming .epoch .latest) ticks).any
      (fun | .running _ => false | _ => true) = true := by decide +kernel
  obtain ⟨p, run, left⟩ := (Option.any_eq_true _ _).mp through
  have held : .lost ∉ (log ticks).filterMap Deed.renewal? := by decide +kernel
  have within : ∀ t ∈ panickedRun, t.event ≠ .go := by simp [panickedRun]
  refine ⟨⟨p, run⟩, held, ((finalized_exactly_once rfl within run).2.2.1 ?_).2 held⟩
  rintro _ rfl
  cases left

end Poller
end DelayedJobs
