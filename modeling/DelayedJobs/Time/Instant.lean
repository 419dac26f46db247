import DelayedJobs.Time.Duration

/-!
Instants of universal time in nanoseconds since 1970, from the start of the year -262143 to the
end of the year 262142. Moving an instant by a duration goes through signed spans, which are
bounded on their own; whatever does not fit stops at the earliest or the latest instant.
-/

namespace DelayedJobs

structure Instant where
  nanos : Int
  earliest_le : -8334601228800000000000 ≤ nanos
  le_latest : nanos ≤ 8210266876799999999999
deriving DecidableEq

namespace Instant

abbrev minNanos : Int := -8334601228800000000000
abbrev maxNanos : Int := 8210266876799999999999

@[ext] theorem ext {a b : Instant} (h : a.nanos = b.nanos) : a = b := by
  cases a; cases b; simp_all

instance : LE Instant := ⟨fun a b => a.nanos ≤ b.nanos⟩
instance : LT Instant := ⟨fun a b => a.nanos < b.nanos⟩
instance (a b : Instant) : Decidable (a ≤ b) := inferInstanceAs (Decidable (a.nanos ≤ b.nanos))
instance (a b : Instant) : Decidable (a < b) := inferInstanceAs (Decidable (a.nanos < b.nanos))

theorem le_iff {a b : Instant} : a ≤ b ↔ a.nanos ≤ b.nanos := Iff.rfl
theorem lt_iff {a b : Instant} : a < b ↔ a.nanos < b.nanos := Iff.rfl

def earliest : Instant := ⟨minNanos, by decide, by decide⟩
def latest : Instant := ⟨maxNanos, by decide, by decide⟩
def epoch : Instant := ⟨0, by decide, by decide⟩

instance : Inhabited Instant := ⟨epoch⟩

def ofNanos? (n : Int) : Option Instant :=
  if h : minNanos ≤ n ∧ n ≤ maxNanos then some ⟨n, h.1, h.2⟩ else none

def nearest (n : Int) : Instant :=
  ⟨max minNanos (min n maxNanos), by simp only [minNanos, maxNanos]; omega,
    by simp only [minNanos, maxNanos]; omega⟩

/-- Nanoseconds from 1970 to the start of the year 2000. -/
def millennium : Int := 946684800000000000

/-- The instant in whole microseconds counted from the year 2000, the rest dropped toward it. -/
def wholeMicros (t : Instant) : Instant where
  nanos :=
    if millennium ≤ t.nanos then t.nanos - (t.nanos - millennium) % 1000
    else t.nanos + (millennium - t.nanos) % 1000
  earliest_le := by
    have := t.earliest_le
    split <;> simp only [millennium] at * <;> omega
  le_latest := by
    have := t.le_latest
    split <;> simp only [millennium] at * <;> omega

end Instant

/-- A signed length of at most `2 ^ 63 - 1` milliseconds. -/
structure Span where
  nanos : Int
  bounded : nanos.natAbs ≤ 9223372036854775807000000
deriving DecidableEq

namespace Span

def ofNanos? (n : Int) : Option Span :=
  if h : n.natAbs ≤ 9223372036854775807000000 then some ⟨n, h⟩ else none

def longest : Span := ⟨9223372036854775807000000, by decide⟩

def ofDuration? (d : Duration) : Option Span := ofNanos? d.nanos

def ofSeconds? (n : Nat) : Option Span :=
  if n < Word.count63 then ofNanos? (n * 1000000000) else none

end Span

namespace Instant

def add? (t : Instant) (s : Span) : Option Instant := ofNanos? (t.nanos + s.nanos)
def sub? (t : Instant) (s : Span) : Option Instant := ofNanos? (t.nanos - s.nanos)

def after (t : Instant) (d : Duration) : Instant :=
  ((Span.ofDuration? d).bind t.add?).getD latest

def before (t : Instant) (d : Duration) : Instant :=
  ((Span.ofDuration? d).bind t.sub?).getD earliest

def afterSeconds (t : Instant) (n : Nat) : Instant :=
  ((Span.ofSeconds? n).bind t.add?).getD latest

end Instant

/-- A clock that cannot jump: it reads its anchor when it starts and moves on with the time elapsed
since, up to the latest instant. -/
structure Clock where
  anchor : Instant

namespace Clock

def read (c : Clock) (elapsed : Duration) : Instant :=
  (c.anchor.add? ((Span.ofDuration? elapsed).getD Span.longest)).getD Instant.latest

end Clock

end DelayedJobs
