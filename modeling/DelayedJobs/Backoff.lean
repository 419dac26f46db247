import DelayedJobs.Settings.Basic

/-!
The pause before a failed job may be claimed again: the retry interval times the retry factor once
for each earlier failure, up to a limit. The computation is written over any kind of duration and
of number with the operations it needs, and runs on doubles.
-/

namespace DelayedJobs

/-- The operations on durations and numbers with which a growing delay is computed. -/
class Reckoning (D : outParam Type) (F : Type) where
  isZero : D → Bool
  seconds : D → F
  duration? : F → Option D
  ofNat : Nat → F
  lt : F → F → Bool
  le : F → F → Bool
  mul : F → F → F
  div : F → F → F
  log : F → F
  pow : F → F → F
  ceil : F → F

/-- Functions on doubles that are not computed here but by a library. -/
structure FloatLibrary where
  log : Float → Float
  pow : Float → Float → Float
  ceil : Float → Float

def FloatLibrary.native : FloatLibrary := ⟨Float.log, Float.pow, Float.ceil⟩

@[reducible] def Reckoning.doubles (library : FloatLibrary) : Reckoning Duration Float where
  isZero d := d.nanos == 0
  seconds := Duration.toFloat
  duration? := Duration.ofFloat?
  ofNat := Float.ofNat
  lt x y := x < y
  le x y := x ≤ y
  mul := (· * ·)
  div := (· / ·)
  log := library.log
  pow := library.pow
  ceil := library.ceil

namespace Backoff

open Reckoning

variable {D F : Type} [Reckoning D F]

/-- The number of earlier failures at which the delay has certainly reached the limit. -/
def ceiling (base limit : D) (factor : F) : F :=
  ceil (div (log (div (seconds limit) (seconds base))) (log factor))

/-- The delay after the given attempt has failed; attempts count from one. -/
def delay [Max D] [Min D] (base limit : D) (factor : F) (attempt : Nat) : D :=
  let limit := max limit base
  if attempt ≤ 1 || !lt (ofNat 1) factor || isZero F base then min base limit
  else
    let failures : F := ofNat (attempt - 1)
    if le (ceiling base limit factor) failures then limit
    else (duration? (mul (seconds base) (pow factor failures))).elim limit (min · limit)

end Backoff

def Settings.delayBy (library : FloatLibrary) (s : Settings) (attempt : Nat) : Duration :=
  letI := Reckoning.doubles library
  Backoff.delay s.retryInterval s.maxRetryInterval s.retryFactor attempt

def Settings.retryDelay (s : Settings) (attempt : Nat) : Duration := s.delayBy .native attempt

end DelayedJobs
