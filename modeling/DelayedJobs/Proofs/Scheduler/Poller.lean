import DelayedJobs.Scheduler.Poller

/-!
When each event of a worker is possible and what it leads to. The upkeep of a lease comes first, the
worker around it after.
-/

namespace DelayedJobs

namespace Lease
variable {s : Settings} {clock : Clock} {now : Nat} {p q : Phase}

def answered (s : Settings) (now : Nat) : Renewal → Phase
  | .kept => .resting (now + s.keepAliveInterval.nanos)
  | .failed => .resting (now + s.keepAliveRetryInterval.nanos)
  | .lost => .ended .lost
  | .panicked => .ended .panicked

/-- When an event is possible in a phase `p`, and the phase `q` that it leads to. -/
def Leads (s : Settings) (clock : Clock) (now : Nat) (p q : Phase) : Event → Prop
  | .wake => ∃ wakeAt, p = .resting wakeAt ∧ wakeAt ≤ now ∧
      .renewing now (s.leaseEnd (clock.read (elapsed now))) = q
  | .answer r => (∃ since until_, p = .renewing since until_) ∧ answered s now r = q
  | .finish => p.isEnded = false ∧ .ended .held = q

theorem step_eq_some_iff {e : Event} : step s clock now p e = some q ↔
    Leads s clock now p q e := by
  cases e with
  | wake => cases p <;> simp [step, Leads]
  | answer r =>
    cases p with
    | renewing => cases r <;> simp [step, Leads, answered]
    | resting | ended => simp [step, Leads]
  | finish => cases p <;> simp [step, Leads, Phase.isEnded]

end Lease

namespace Poller
variable {c : Context} {p q : Phase}

def claimed (c : Context) : Claim → Phase
  | .job job => .running { job, lease := Lease.start c.settings c.now }
  | .nothing | .failed =>
    if c.shutdown then .stopped else .resting (c.now + c.settings.pollInterval.nanos)
  | .panicked => .panicked

def Leads (c : Context) (p q : Phase) : Event → Prop
  | .go => p = .checking ∧
      (if c.shutdown then .stopped else .claiming c.instant (c.settings.leaseEnd c.instant)) = q
  | .claimed r => (∃ now until_, p = .claiming now until_) ∧ claimed c r = q
  | .wake => ∃ wakeAt, p = .resting wakeAt ∧ wakeAt ≤ c.now ∧ .checking = q
  | .cut => (∃ wakeAt, p = .resting wakeAt) ∧ c.shutdown = true ∧ .stopped = q
  | .handlerEnded r =>
    ∃ run, p = .running run ∧ run.result = none ∧ .running { run with result := some r } = q
  | .finish => ∃ run, p = .running run ∧ (run.result.isSome = true ∧ run.finished = false) ∧
      .running { run with finished := true } = q
  | .lease e => ∃ run, p = .running run ∧ (e = .finish → run.finished = true) ∧
      ∃ lease, Lease.step c.settings c.clock c.now run.lease e = some lease ∧
        .running { run with lease } = q
  | .conclude =>
    ∃ run, p = .running run ∧ (run.finished = true ∧ run.lease.isEnded = true) ∧
      (if run.lease.hijacked then .checking
        else .finalizing run.job
          (finalization c.settings c.instant run.job (run.result == some .ok))) = q
  | .finalized r => (∃ job call, p = .finalizing job call) ∧
      (if r = .panicked then .panicked else .checking) = q

theorem step_eq_some_iff {e : Event} : step c p e = some q ↔ Leads c p q e := by
  cases e with
  | go =>
    cases p with
    | checking => rw [step, ← apply_ite some, Option.some.injEq, Leads, and_iff_right rfl]
    | _ => simp [step, Leads]
  | claimed r =>
    cases p with
    | claiming now until_ => cases r <;> simp [step, Leads, claimed, ← apply_ite some]
    | _ => simp [step, Leads]
  | conclude =>
    cases p with
    | running run => simp [step, Leads, ← apply_ite some]
    | _ => simp [step, Leads]
  | finalized r =>
    cases p with
    | finalizing job call => cases r <;> simp [step, Leads]
    | _ => simp [step, Leads]
  | wake | cut | handlerEnded | finish | lease => cases p <;> simp [step, Leads]

end Poller
end DelayedJobs
