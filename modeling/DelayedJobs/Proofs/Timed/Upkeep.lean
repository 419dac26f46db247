import DelayedJobs.Proofs.Scheduler.Poller
import DelayedJobs.Proofs.Settings.Safety
import DelayedJobs.Proofs.Timed.Basic

/-!
The upkeep of a lease in time. Renewals take as long as they like and come back as they like, short
of a panic; the job finishes at a given instant or never. What has happened is kept in a log, and
each entry of the log says when the next one comes.
-/

namespace DelayedJobs
namespace Lease

inductive Mark where
  | started
  | began (until_ : Instant)
  | returned (r : Renewal)
  | finished
deriving DecidableEq

structure Upkeep where
  phase : Phase
  log : List (Nat × Mark)
deriving DecidableEq

namespace Upkeep

def start (s : Settings) (now : Nat) : Timed.Moment Upkeep :=
  ⟨now, Lease.start s now, [(now, .started)]⟩

def marks : Event → Phase → List Mark
  | .wake, .renewing _ until_ => [.began until_]
  | .wake, _ => []
  | .answer r, _ => [.returned r]
  | .finish, _ => [.finished]

def mayHappen (finishAt : Option Nat) (now : Nat) : Event → Bool
  | .finish => finishAt.any (· ≤ now)
  | .answer r => r != .panicked
  | .wake => true

/-- Pauses end when they are over, and the end of the job is seen at once. -/
def timed (s : Settings) (clock : Clock) (finishAt : Option Nat) : Timed Upkeep Event where
  step now u e :=
    if mayHappen finishAt now e then
      (step s clock now u.phase e).map fun q => ⟨q, u.log ++ (marks e q).map (now, ·)⟩
    else none
  deadlines u :=
    match u.phase with
    | .resting wakeAt => wakeAt :: finishAt.toList
    | .renewing _ _ => finishAt.toList
    | .ended _ => []

end Upkeep

def pauseAfter (s : Settings) : Mark → Option Nat
  | .started | .returned .kept => some s.keepAliveInterval.nanos
  | .returned .failed => some s.keepAliveRetryInterval.nanos
  | _ => none

inductive Next (s : Settings) (clock : Clock) (t₀ : Nat) (finishAt : Option Nat) :
    Nat × Mark → Nat × Mark → Prop
  /-- A renewal begins just when the pause is over, and asks for a whole lease from then on. -/
  | began {t pause : Nat} {mark : Mark} (h : pauseAfter s mark = some pause) :
    Next s clock t₀ finishAt (t, mark)
      (t + pause, .began ((clock.read (elapsed (t + pause))).after s.keepAlivePeriod))
  | returned {t t' : Nat} {until_ : Instant} {r : Renewal} (h : t ≤ t') :
    Next s clock t₀ finishAt (t, .began until_) (t', .returned r)
  | finished {t f : Nat} {mark : Mark} (h : f ∈ finishAt) (held : mark ≠ .returned .lost)
      (going : mark ≠ .finished) :
    Next s clock t₀ finishAt (t, mark) (max f t₀, .finished)

section Run
variable {s : Settings} {clock : Clock} {t₀ n t : Nat} {finishAt : Option Nat}
variable {m m' : Timed.Moment Upkeep} {e : Event}

theorem Phase.eq_of_hijacked {p : Phase} (h : p.hijacked = true) : p = .ended .lost := by
  cases p with
  | resting | renewing => cases h
  | ended e =>
    cases e with
    | lost => rfl
    | held | panicked => cases h

def Stands (s : Settings) (t₀ : Nat) (finishAt : Option Nat) (now : Nat) (last : Nat × Mark) :
    Phase → Prop
  | .resting wakeAt => last.1 ≤ now ∧ now ≤ wakeAt ∧
      ∃ pause, pauseAfter s last.2 = some pause ∧ wakeAt = last.1 + pause
  | .renewing since until_ => last = (since, .began until_) ∧ since ≤ now
  | .ended .held => last = (now, .finished) ∧ ∃ f ∈ finishAt, now = max f t₀
  | .ended .lost => last = (now, .returned .lost)
  | .ended .panicked => False

def Paced (s : Settings) (t₀ n last : Nat) : Phase → Prop
  | .resting _ => ∃ b, n = 2 * b ∧ t₀ + b * s.keepAliveRetryInterval.nanos ≤ last
  | .renewing _ _ => ∃ b, n = 2 * b + 1 ∧ t₀ + (b + 1) * s.keepAliveRetryInterval.nanos ≤ last
  | .ended _ => ∃ b, n ≤ 2 * b + 1 ∧ t₀ + b * s.keepAliveRetryInterval.nanos ≤ last

structure Steady (s : Settings) (clock : Clock) (t₀ : Nat) (finishAt : Option Nat) (n : Nat)
    (m : Timed.Moment Upkeep) : Prop where
  last : ∃ last, Logged (Next s clock t₀ finishAt) (t₀, .started) m.state.log last ∧
    t₀ ≤ last.1 ∧ last.1 ≤ m.now ∧ Stands s t₀ finishAt m.now last m.state.phase ∧
    Paced s t₀ n last.1 m.state.phase
  inTime : ∀ f ∈ finishAt, m.now ≤ max f t₀
  begun : ∀ t until_, (t, .began until_) ∈ m.state.log → ∀ f ∈ finishAt, t ≤ f
  lost : ∀ t, (t, .returned .lost) ∈ m.state.log → m.state.phase = .ended .lost ∧ t = m.now

theorem tick_cases (h : (Upkeep.timed s clock finishAt).tick? m t e = some m') :
    m.now ≤ t ∧ (m.state.phase.isEnded = false → ∀ f ∈ finishAt, t ≤ max f m.now) ∧
    ((∃ wakeAt, m.state.phase = .resting wakeAt ∧ t = max wakeAt m.now ∧
        m' = ⟨t, .renewing t (s.leaseEnd (clock.read (elapsed t))),
          m.state.log ++ [(t, .began (s.leaseEnd (clock.read (elapsed t))))]⟩) ∨
      (∃ since until_ r, m.state.phase = .renewing since until_ ∧ r ≠ .panicked ∧
        m' = ⟨t, answered s t r, m.state.log ++ [(t, .returned r)]⟩) ∨
      (m.state.phase.isEnded = false ∧ (∃ f ∈ finishAt, f ≤ t) ∧
        m' = ⟨t, .ended .held, m.state.log ++ [(t, .finished)]⟩)) := by
  obtain ⟨⟨later, deadlines⟩, q, stepped, rfl⟩ := Timed.tick?_eq_some_iff.mp h
  obtain ⟨now, phase, log⟩ := m
  simp only [Upkeep.timed] at stepped deadlines
  split at stepped
  next happens =>
    obtain ⟨next, leads, rfl⟩ := Option.map_eq_some_iff.mp stepped
    rw [step_eq_some_iff] at leads
    refine ⟨later, ?_, ?_⟩
    · intro going f hf
      cases phase with
      | ended => cases going
      | resting => exact deadlines f (List.mem_cons_of_mem _ (Option.mem_toList.mpr hf))
      | renewing => exact deadlines f (Option.mem_toList.mpr hf)
    · cases e with
      | wake =>
        obtain ⟨wakeAt, rfl, due, rfl⟩ := leads
        have soon := deadlines wakeAt List.mem_cons_self
        exact .inl ⟨wakeAt, rfl, by dsimp only at later soon ⊢; omega, rfl⟩
      | answer r =>
        obtain ⟨⟨since, until_, rfl⟩, rfl⟩ := leads
        exact .inr (.inl ⟨since, until_, r, rfl, bne_iff_ne.mp happens, rfl⟩)
      | finish =>
        obtain ⟨going, rfl⟩ := leads
        obtain ⟨f, hf, passed⟩ := (Option.any_eq_true _ _).mp happens
        exact .inr (.inr ⟨going, ⟨f, hf, of_decide_eq_true passed⟩, rfl⟩)
  next => cases stepped

theorem Stands.open {now : Nat} {last : Nat × Mark} {p : Phase}
    (h : Stands s t₀ finishAt now last p)
    (going : p.isEnded = false) : last.2 ≠ .returned .lost ∧ last.2 ≠ .finished := by
  cases p with
  | ended => cases going
  | resting =>
    obtain ⟨-, -, pause, hpause, -⟩ := h
    constructor <;> (intro eq; rw [eq] at hpause; cases hpause)
  | renewing =>
    obtain ⟨rfl, -⟩ := h
    exact ⟨nofun, nofun⟩

theorem Paced.le {last : Nat} {p : Phase} (h : Paced s t₀ n last p) :
    ∃ b, n ≤ 2 * b + 1 ∧ t₀ + b * s.keepAliveRetryInterval.nanos ≤ last := by
  cases p with
  | resting =>
    obtain ⟨b, count, elapsed⟩ := h
    exact ⟨b, by omega, elapsed⟩
  | renewing =>
    obtain ⟨b, count, elapsed⟩ := h
    rw [Nat.add_mul] at elapsed
    exact ⟨b, by omega, by omega⟩
  | ended => exact h

theorem Paced.closing {last : Nat} {p : Phase} (h : Paced s t₀ n last p)
    (going : p.isEnded = false) :
    ∃ b, n + 1 ≤ 2 * b + 1 ∧ t₀ + b * s.keepAliveRetryInterval.nanos ≤ last := by
  cases p with
  | ended => cases going
  | resting =>
    obtain ⟨b, count, elapsed⟩ := h
    exact ⟨b, by omega, elapsed⟩
  | renewing =>
    obtain ⟨b, count, elapsed⟩ := h
    exact ⟨b + 1, by omega, elapsed⟩

theorem Steady.extend {last : Nat × Mark} {mark : Mark} {q : Phase}
    (h : Steady s clock t₀ finishAt n m) (going : m.state.phase.isEnded = false)
    (logged : Logged (Next s clock t₀ finishAt) (t₀, .started) m.state.log last)
    (least : t₀ ≤ last.1) (later : last.1 ≤ t)
    (room : ∀ f ∈ finishAt, t ≤ max f t₀) (next : Next s clock t₀ finishAt last (t, mark))
    (begun : ∀ until_, mark = .began until_ → t₀ < t)
    (lost : mark = .returned .lost → q = .ended .lost)
    (stands : Stands s t₀ finishAt t (t, mark) q) (paced : Paced s t₀ (n + 1) t q) :
    Steady s clock t₀ finishAt (n + 1) ⟨t, q, m.state.log ++ [(t, mark)]⟩ where
  last := ⟨(t, mark), logged.append next, least.trans later, le_rfl, stands, paced⟩
  inTime := room
  begun t' until_ mem f hf := by
    obtain old | new := List.mem_append.mp mem
    · exact h.begun t' until_ old f hf
    · cases List.mem_singleton.mp new
      have after := begun until_ rfl
      have before := room f hf
      omega
  lost t' mem := by
    obtain old | new := List.mem_append.mp mem
    · rw [(h.lost t' old).1] at going
      cases going
    · cases List.mem_singleton.mp new
      exact ⟨lost rfl, rfl⟩

theorem pauseAfter_le {mark : Mark} {pause : Nat}
    (ordered : s.keepAliveRetryInterval ≤ s.keepAliveInterval)
    (h : pauseAfter s mark = some pause) : s.keepAliveRetryInterval.nanos ≤ pause := by
  have le : s.keepAliveRetryInterval.nanos ≤ s.keepAliveInterval.nanos := ordered
  cases mark with
  | began | finished => cases h
  | started =>
    cases h
    exact le
  | returned r =>
    cases r with
    | kept =>
      cases h
      exact le
    | failed =>
      cases h
      exact le_rfl
    | lost | panicked => cases h

theorem Steady.tick (positive : 0 < s.keepAliveRetryInterval.nanos)
    (ordered : s.keepAliveRetryInterval ≤ s.keepAliveInterval) (h : Steady s clock t₀ finishAt n m)
    (tick : (Upkeep.timed s clock finishAt).tick? m t e = some m') :
    Steady s clock t₀ finishAt (n + 1) m' := by
  obtain ⟨later, inTime, event⟩ := tick_cases tick
  obtain ⟨last, logged, least, past, stands, paced⟩ := h.last
  have room (going : m.state.phase.isEnded = false) : ∀ f ∈ finishAt, t ≤ max f t₀ := by
    intro f hf
    have before := h.inTime f hf
    have after := inTime going f hf
    omega
  obtain ⟨wakeAt, phase, woken, rfl⟩ | ⟨since, until_, r, phase, calm, rfl⟩ |
    ⟨going, ⟨f, hf, passed⟩, rfl⟩ := event
  -- The pause is over, and it has lasted exactly as long as it should.
  · rw [phase] at stands paced
    obtain ⟨-, early, pause, hpause, rfl⟩ := stands
    have going : m.state.phase.isEnded = false := by rw [phase]; rfl
    have just : t = last.1 + pause := by omega
    have long := pauseAfter_le ordered hpause
    obtain ⟨b, count, elapsed⟩ := paced
    subst just
    refine h.extend going logged least (by omega) (room going) (.began hpause)
      (fun _ _ => by omega) nofun ⟨rfl, le_rfl⟩ ⟨b, by omega, ?_⟩
    rw [Nat.add_mul]
    omega
  · rw [phase] at stands paced
    obtain ⟨rfl, begun⟩ := stands
    have going : m.state.phase.isEnded = false := by rw [phase]; rfl
    obtain ⟨b, count, elapsed⟩ := paced
    dsimp only at elapsed
    have answered_ : Stands s t₀ finishAt t (t, .returned r) (answered s t r) ∧
        Paced s t₀ (n + 1) t (answered s t r) := by
      cases r with
      | kept =>
        exact ⟨⟨le_rfl, Nat.le_add_right _ _, _, rfl, rfl⟩, b + 1, by omega, by omega⟩
      | failed =>
        exact ⟨⟨le_rfl, Nat.le_add_right _ _, _, rfl, rfl⟩, b + 1, by omega, by omega⟩
      | lost => exact ⟨rfl, b + 1, by omega, by omega⟩
      | panicked => exact absurd rfl calm
    refine h.extend going logged least (begun.trans later) (room going)
      (.returned (begun.trans later)) (fun _ eq => by cases eq) ?_ answered_.1 answered_.2
    intro lost
    cases lost
    rfl
  -- Time has not passed the instant at which the job finished, and it stands there now.
  · have just : t = max f t₀ := by
      have latest := room going f hf
      omega
    have open_ := stands.open going
    obtain ⟨b, count, elapsed⟩ := paced.closing going
    rw [just]
    rw [just] at room later
    exact h.extend going logged least (past.trans later) (room going)
      (.finished hf open_.1 open_.2) (fun _ eq => by cases eq) (fun eq => by cases eq)
        ⟨rfl, f, hf, rfl⟩
      ⟨b, count, by omega⟩

theorem Steady.start (s : Settings) (clock : Clock) (t₀ : Nat) (finishAt : Option Nat) :
    Steady s clock t₀ finishAt 0 (Upkeep.start s t₀) where
  last := ⟨(t₀, .started), .singleton _, le_rfl, le_rfl,
    ⟨le_rfl, Nat.le_add_right _ _, _, rfl, rfl⟩, 0, rfl, by omega⟩
  inTime _ _ := Nat.le_max_right _ _
  begun t until_ mem := by cases List.mem_singleton.mp mem
  lost t mem := by cases List.mem_singleton.mp mem

theorem tick_isSome {q : Phase} (waits : (Upkeep.timed s clock finishAt).MayWait m t)
    (happens : Upkeep.mayHappen finishAt t e = true) (leads : Leads s clock t m.state.phase q e) :
    ((Upkeep.timed s clock finishAt).tick? m t e).isSome = true := by
  refine Timed.isSome_tick?_iff.mpr ⟨waits, ?_⟩
  simp only [Upkeep.timed]
  rw [if_pos happens, step_eq_some_iff.mpr leads]
  rfl

theorem finish_isSome {f : Nat} (going : m.state.phase.isEnded = false)
    (first : ∀ wakeAt, m.state.phase = .resting wakeAt → f ≤ wakeAt) :
    ((Upkeep.timed s clock (some f)).tick? m (max f m.now) .finish).isSome = true := by
  refine tick_isSome ⟨Nat.le_max_right _ _, fun d hd => ?_⟩
    (decide_eq_true (Nat.le_max_left _ _)) ⟨going, rfl⟩
  simp only [Upkeep.timed] at hd
  generalize m.state.phase = phase at *
  cases phase with
  | ended => cases hd
  | renewing =>
    cases List.mem_singleton.mp hd
    exact le_rfl
  | resting wakeAt =>
    have before := first wakeAt rfl
    obtain rfl | hd := List.mem_cons.mp hd
    · omega
    · cases List.mem_singleton.mp hd
      exact le_rfl

theorem Steady.goesOn_iff (h : Steady s clock t₀ finishAt n m) : m.state.phase.isEnded = false ↔
    ∃ t e, ((Upkeep.timed s clock finishAt).tick? m t e).isSome = true := by
  obtain ⟨last, -, -, -, stands, -⟩ := h.last
  constructor
  · intro going
    cases phase : m.state.phase with
    | ended =>
      rw [phase] at going
      cases going
    | renewing since until_ =>
      cases finishAt with
      | some f =>
        refine ⟨_, _, finish_isSome (f := f) going fun wakeAt resting => ?_⟩
        rw [phase] at resting
        cases resting
      | none =>
        refine ⟨m.now, .answer .kept, tick_isSome (e := .answer .kept) ⟨le_rfl, fun d hd => ?_⟩ rfl
          ⟨⟨_, _, phase⟩, rfl⟩⟩
        simp only [Upkeep.timed, phase] at hd
        cases hd
    | resting wakeAt =>
      rw [phase] at stands
      have early : m.now ≤ wakeAt := stands.2.1
      by_cases finishes : ∃ f ∈ finishAt, f ≤ wakeAt
      · obtain ⟨f, hf, before⟩ := finishes
        rw [Option.mem_def] at hf
        subst hf
        refine ⟨_, _, finish_isSome (f := f) going fun wakeAt' resting => ?_⟩
        rw [phase] at resting
        cases resting
        exact before
      · refine ⟨wakeAt, .wake, tick_isSome (e := .wake) ⟨early, fun d hd => ?_⟩ rfl
          ⟨wakeAt, phase, le_rfl, rfl⟩⟩
        simp only [Upkeep.timed, phase] at hd
        obtain rfl | hd := List.mem_cons.mp hd
        · exact Nat.le_max_left _ _
        · have after := not_le.mp fun le => finishes ⟨d, Option.mem_toList.mp hd, le⟩
          omega
  · rintro ⟨t, e, possible⟩
    obtain ⟨m', tick⟩ := Option.isSome_iff_exists.mp possible
    obtain ⟨-, -, ⟨wakeAt, phase, -⟩ | ⟨since, until_, r, phase, -⟩ | ⟨going, -⟩⟩ := tick_cases tick
    · rw [phase]
      rfl
    · rw [phase]
      rfl
    · exact going

structure Punctual (s : Settings) (clock : Clock) (t₀ : Nat) (finishAt : Option Nat) (events : Nat)
    (m : Timed.Moment Upkeep) : Prop where
  starts : m.state.log.head? = some (t₀, .started)
  /-- Each renewal begins when its pause is over, and the end of the job stops everything. -/
  follows : m.state.log.IsChain (Next s clock t₀ finishAt)
  begun : ∀ t until_, (t, .began until_) ∈ m.state.log → ∀ f ∈ finishAt, t ≤ f
  lost : ∀ t, (t, .returned .lost) ∈ m.state.log → t = m.now ∧ m.state.phase = .ended .lost
  hijacked : m.state.phase.hijacked = true ↔ ∃ t, (t, .returned .lost) ∈ m.state.log
  ended : m.state.phase.isEnded = true → m.state.phase = .ended .lost ∨
    m.state.phase = .ended .held ∧ m.state.log.getLast? = some (m.now, .finished) ∧
      ∃ f ∈ finishAt, m.now = max f t₀
  inTime : ∀ f ∈ finishAt, m.now ≤ max f t₀
  goesOn : m.state.phase.isEnded = false ↔
    ∃ t e, ((Upkeep.timed s clock finishAt).tick? m t e).isSome = true
  /-- Many events take a long time, so that the job does finish in the end. -/
  pace : Settings.shortestPause.nanos * events + 2 * t₀ ≤
    2 * m.now + s.keepAliveRetryInterval.nanos

theorem Steady.punctual (long : Settings.shortestPause ≤ s.keepAliveRetryInterval)
    (h : Steady s clock t₀ finishAt n m) : Punctual s clock t₀ finishAt n m := by
  obtain ⟨last, logged, least, past, stands, paced⟩ := h.last
  refine ⟨logged.head, logged.chain, h.begun, fun t mem => (h.lost t mem).symm, ?_, ?_, h.inTime,
    h.goesOn_iff, ?_⟩
  · constructor
    · intro hijacked
      rw [Phase.eq_of_hijacked hijacked] at stands
      exact ⟨m.now, (show last = (m.now, .returned .lost) from stands) ▸ logged.mem⟩
    · rintro ⟨t, mem⟩
      rw [(h.lost t mem).1]
      rfl
  · intro ended
    cases phase : m.state.phase with
    | resting | renewing =>
      rw [phase] at ended
      cases ended
    | ended e =>
      rw [phase] at stands
      cases e with
      | lost => exact .inl rfl
      | panicked => exact stands.elim
      | held =>
        obtain ⟨rfl, finished⟩ := stands
        exact .inr ⟨rfl, logged.last, finished⟩
  · obtain ⟨b, count, elapsed⟩ := paced.le
    have long' : Settings.shortestPause.nanos * n ≤ s.keepAliveRetryInterval.nanos * (2 * b + 1) :=
      Nat.mul_le_mul long count
    have pauses : s.keepAliveRetryInterval.nanos * (2 * b + 1) =
        2 * (b * s.keepAliveRetryInterval.nanos) + s.keepAliveRetryInterval.nanos := by ring
    omega

/-- Whatever the renewals come to and however long they take, the upkeep of a lease under clamped
settings keeps to its times. -/
theorem upkeep_punctual (raw : Settings) (clock : Clock) (t₀ : Nat) (finishAt : Option Nat)
    {events : List (Nat × Event)} (run : (Upkeep.timed raw.clamped clock finishAt).run?
      (Upkeep.start raw.clamped t₀) events = some m) :
    Punctual raw.clamped clock t₀ finishAt events.length m := by
  have safe := raw.clamped_safe
  have long : Settings.shortestPause.nanos ≤ raw.clamped.keepAliveRetryInterval.nanos :=
    safe.renewalPause
  have pause : 0 < Settings.shortestPause.nanos := by decide
  have course := Timed.run?_induction (P := Steady raw.clamped clock t₀ finishAt)
    (fun _ _ _ _ _ h tick => h.tick (pause.trans_le long) safe.renewalPauseLe tick)
    (Steady.start raw.clamped clock t₀ finishAt) run
  rw [Nat.zero_add] at course
  exact course.punctual safe.renewalPause

def threeRenewals : List (Nat × Event) :=
  [(5000000000, .wake), (5500000000, .answer .failed), (6500000000, .wake),
    (7000000000, .answer .kept), (12000000000, .wake), (12500000000, .finish)]

theorem threeRenewals_punctual :
    let s : Settings := Settings.clamped {}
    let clock : Clock := ⟨.epoch⟩
    ∃ m, (Upkeep.timed s clock (some 12500000000)).run? (Upkeep.start s 0) threeRenewals = some m ∧
      m.state.phase = .ended .held ∧ m.state.log.length = 7 ∧
      Punctual s clock 0 (some 12500000000) 6 m := by
  intro s clock
  have ended : ((Upkeep.timed s clock (some 12500000000)).run? (Upkeep.start s 0)
      threeRenewals).map (fun m => (m.state.phase, m.state.log.length)) =
        some (.ended .held, 7) := by
    decide +kernel
  obtain ⟨m, run, shape⟩ := Option.map_eq_some_iff.mp ended
  rw [Prod.mk.injEq] at shape
  exact ⟨m, run, shape.1, shape.2, upkeep_punctual {} clock 0 (some 12500000000) run⟩

end Run

end Lease
end DelayedJobs
