import DelayedJobs.Scheduler.Poller

/-!
The loop that prunes finished jobs. After a full batch it comes back within seconds, unless that
has gone on for too long; otherwise it waits the prune interval. Pauses are spread by up to thirty
per cent.
-/

namespace DelayedJobs

namespace Cleaner

def busyPause : Duration := .ofSeconds 5

def mostBusy : Nat := 16

def pause (streak : Nat) (pruneInterval : Duration) : Duration :=
  if 0 < streak ∧ streak < mostBusy then busyPause else pruneInterval

/-- A streak is counted in words of 32 bits and stays at the greatest. -/
def lengthen (streak : Nat) : Nat := min (streak + 1) (Word.count32 - 1)

/-- Whether `drawn` nanoseconds lie in the spread around a pause, up to rounding. -/
def isSpread (plain : Duration) (drawn : Nat) : Bool :=
  7 * plain.nanos ≤ 10 * (drawn + 1) && 10 * drawn ≤ 13 * plain.nanos + 10

inductive Pruned where
  | more
  | done
  | failed
  | panicked
deriving DecidableEq

inductive Phase where
  | idle (streak : Nat)
  | resting (streak : Nat) (wakeAt : Nat)
  | pruning (streak : Nat) (cutoff : Instant)
  | stopped
  | panicked
deriving DecidableEq

inductive Event where
  /-- Rests for a pause that is drawn from the spread, or stops if the scheduler is shutting
  down. -/
  | rest (drawn : Nat)
  | wake
  | cut
  | pruned (p : Pruned)
deriving DecidableEq

def nextStreak (streak : Nat) : Pruned → Nat
  | .more => lengthen streak
  | _ => 0

def step (c : Poller.Context) : Phase → Event → Option Phase
  | .idle streak, .rest drawn =>
    if c.shutdown then some .stopped
    else if isSpread (pause streak c.settings.pruneInterval) drawn then
      some (.resting streak (c.now + drawn))
    else none
  | .resting streak wakeAt, .wake =>
    if wakeAt ≤ c.now then some (.pruning streak (c.instant.before c.settings.keepFinished))
    else none
  | .resting _ _, .cut => if c.shutdown then some .stopped else none
  | .pruning _ _, .pruned .panicked => some .panicked
  | .pruning streak _, .pruned p => some (.idle (nextStreak streak p))
  | _, _ => none

end Cleaner
end DelayedJobs
