import DelayedJobs.Proofs.Decimal.Monotone
import DelayedJobs.Proofs.Time.Seconds

/-!
Durations and double precision seconds in order. Of two numbers of seconds the larger one is no
shorter as a duration, and a duration from a second to a day comes back from its seconds unchanged.
-/

namespace DelayedJobs

theorem Duration.ofNanos_mono {m n : Nat} (le : m ≤ n) : ofNanos m ≤ ofNanos n := by
  rw [le_iff, nanos_ofNanos, nanos_ofNanos]
  omega

namespace Rounding

open Duration

variable {d : Duration} {x y : Float} {f g : Int}

theorem ofBinarySeconds?_mono {m n : Nat} {e f : Int} (le : (m : ℚ) * 2 ^ e ≤ n * 2 ^ f)
    (eq : ofBinarySeconds? n f = some d) : ∃ c, ofBinarySeconds? m e = some c ∧ c ≤ d := by
  obtain ⟨positive, value⟩ := quotient_value m e
  obtain ⟨positive', value'⟩ := quotient_value n f
  rw [← value, ← value', div_le_div_iff₀ (by exact_mod_cast positive)
    (by exact_mod_cast positive')] at le
  have cross : (Binary.quotient m e).1 * (Binary.quotient n f).2 ≤
      (Binary.quotient n f).1 * (Binary.quotient m e).2 := by exact_mod_cast le
  rw [ofBinarySeconds?] at eq ⊢
  generalize Binary.quotient m e = q at *
  generalize Binary.quotient n f = q' at *
  dsimp only at eq ⊢
  split_ifs at eq with fits'
  cases eq
  have fits : q.1 < Word.count64 * q.2 := by
    refine Nat.lt_of_mul_lt_mul_right (a := q'.2) (cross.trans_lt ?_)
    calc q'.1 * q.2 < Word.count64 * q'.2 * q.2 := Nat.mul_lt_mul_of_pos_right fits' positive
      _ = Word.count64 * q.2 * q'.2 := Nat.mul_right_comm ..
  rw [if_pos fits]
  refine ⟨_, rfl, ofNanos_mono (roundHalfEven_mono positive positive' ?_)⟩
  rw [Nat.mul_right_comm, Nat.mul_right_comm _ 1000000000]
  exact Nat.mul_le_mul_right _ cross

theorem ofFloat?_of_unpack {m : Nat} {e : Int} {h : 0 < m}
    (eq : x.toModel.unpack = .finite .positive m e h) : ofFloat? x = ofBinarySeconds? m e := by
  rw [ofFloat?, ofFloat_eq, eq]
  rfl

theorem ofFloat?_mono (hx : Normal f x) (hy : Normal g y) (le : x ≤ y)
    (eq : ofFloat? y = some d) : ∃ c, ofFloat? x = some c ∧ c ≤ d := by
  obtain infinite | ⟨n, e', full', -, unpacked'⟩ := Regular.cases hy
  · rw [ofFloat?, ofFloat_eq, infinite] at eq
    cases eq
  · obtain ⟨m, e, full, -, unpacked, below⟩ := hx.finite_of_le hy le unpacked'
    rw [ofFloat?_of_unpack unpacked'] at eq
    rw [ofFloat?_of_unpack unpacked]
    exact ofBinarySeconds?_mono below eq

theorem toFloat_between (long : second ≤ d) :
    Between ((1 - 1 / 2 ^ 49) * (d.nanos / 1000000000)) ((1 + 1 / 2 ^ 49) * (d.nanos / 1000000000))
      d.toFloat := by
  have least : 1000000000 ≤ d.nanos := long
  exact between_toFloat (Nat.div_pos least (by decide))

theorem normal_toFloat (long : second ≤ d) : Normal (-253) d.toFloat := by
  obtain ⟨m, e, full, bits, low, high⟩ := toFloat_between long
  have least : 1000000000 ≤ d.nanos := long
  have least' : (1000000000 : ℚ) ≤ d.nanos := by exact_mod_cast least
  have most : (d.nanos : ℚ) ≤ 18446744073709551615999999999 := by exact_mod_cast d.nanos_le
  have small := tiny_le
  have large := le_huge
  have range := exponent_of_moderate (k := 0) (e := e) full.log2 ⟨by linarith, by linarith⟩
  rw [Normal, unpack_of_bits full bits]
  exact ⟨full, by omega⟩

/-- The error of both conversions together is less than a nanosecond. -/
theorem ofFloat?_toFloat (long : second ≤ d) (short : d ≤ day) : ofFloat? d.toFloat = some d := by
  have least : 1000000000 ≤ d.nanos := long
  have most : d.nanos ≤ 86400000000000 := short
  have least' : (1000000000 : ℚ) ≤ d.nanos := by exact_mod_cast least
  have most' : (d.nanos : ℚ) ≤ 86400000000000 := by exact_mod_cast most
  obtain ⟨c, eq, low, high⟩ := ofFloat?_near (toFloat_between long) (by linarith)
  have below : (d.nanos : ℚ) < c.nanos + 1 := by linarith
  have above : (c.nanos : ℚ) < d.nanos + 1 := by linarith
  have below' : d.nanos < c.nanos + 1 := by exact_mod_cast below
  have above' : c.nanos < d.nanos + 1 := by exact_mod_cast above
  rw [eq, show c = d from Duration.ext (by omega)]

end Rounding
end DelayedJobs
