import DelayedJobs.Text.Blank
import DelayedJobs.Time.Duration

/-!
Durations as written by a user: digits and a unit, `30s` or `5 m`, seconds when no unit is given.
-/

namespace DelayedJobs

inductive DurationUnit where
  | milliseconds | seconds | minutes | hours | days
deriving DecidableEq

namespace DurationUnit

def ofText? (s : List Char) : Option DurationUnit :=
  if s = ['m', 's'] then some .milliseconds
  else if s = ['s'] ∨ s = [] then some .seconds
  else if s = ['m'] then some .minutes
  else if s = ['h'] then some .hours
  else if s = ['d'] then some .days
  else none

/-- Seconds in a unit that is not finer than a second. -/
def secondsIn? : DurationUnit → Option Nat
  | milliseconds => none
  | seconds => some 1
  | minutes => some 60
  | hours => some 3600
  | days => some 86400

end DurationUnit

/-- What can be wrong with a written duration; `text` is the text without outer white space. -/
inductive DurationFault where
  | noNumber (text : String)
  | unknownUnit (name text : String)
  | tooLarge (text : String)
deriving DecidableEq

def DurationFault.message : DurationFault → String
  | noNumber text => "invalid duration `" ++ text ++ "`: expected a number with a unit"
  | unknownUnit name text => "unknown duration unit `" ++ name ++ "` in `" ++ text ++ "`"
  | tooLarge text => "duration `" ++ text ++ "` is too large"

namespace Text

def digitsValue (s : List Char) : Nat :=
  s.foldl (fun n c => 10 * n + (c.toNat - 48)) 0

def word64? (s : List Char) : Option Nat :=
  if s ≠ [] ∧ s.all Char.isDigit ∧ digitsValue s < Word.count64 then some (digitsValue s) else none

end Text

open Text in
/-- The duration that a number and the name of a unit stand for, where both are cut from `text`. -/
def Duration.ofParts (text number unit : List Char) : Except DurationFault Duration :=
  let name := trim unit
  match word64? number with
  | none => .error (.noNumber (String.ofList text))
  | some value =>
    match DurationUnit.ofText? name with
    | none => .error (.unknownUnit (String.ofList name) (String.ofList text))
    | some unit =>
      match unit.secondsIn? with
      | none => .ok (ofMillis value)
      | some size =>
        if value * size < Word.count64 then .ok (ofSeconds (value * size))
        else .error (.tooLarge (String.ofList text))

def Duration.parse (s : String) : Except DurationFault Duration :=
  let text := Text.trim s.toList
  ofParts text (text.takeWhile Char.isDigit) (text.dropWhile Char.isDigit)

end DelayedJobs
