/-!
The order of doubles that are numbers. Of two of them the first is below the second or the second is
at most the first, since comparing them the other way round turns the answer.
-/

namespace DelayedJobs.Rounding
open Float.Model

theorem compare_swap (x y : UnpackedFloat) :
    y.compare x = (x.compare y).map Ordering.swap := by
  unfold UnpackedFloat.compare
  cases x with
  | notANumber => cases y <;> rfl
  | infinity s =>
    cases y with
    | infinity t => cases s <;> cases t <;> rfl
    | _ => cases s <;> rfl
  | zero s =>
    cases y with
    | infinity t => cases t <;> rfl
    | finite t => cases t <;> rfl
    | _ => rfl
  | finite s m e =>
    cases y with
    | infinity t => cases s <;> cases t <;> rfl
    | finite t n f =>
      cases s <;> cases t <;>
        simp [Ordering.swap_then, Std.OrientedOrd.eq_swap (a := e) (b := f),
          Std.OrientedOrd.eq_swap (a := m) (b := n)]
    | _ => cases s <;> rfl

theorem isSome_compare {x y : UnpackedFloat} (hx : x.isNaN = false) (hy : y.isNaN = false) :
    (x.compare y).isSome = true := by
  cases x with
  | notANumber => cases hx
  | infinity s =>
    cases y with
    | notANumber => cases hy
    | _ => cases s <;> rfl
  | zero s =>
    cases y with
    | notANumber => cases hy
    | infinity t => cases t <;> rfl
    | finite t => cases t <;> rfl
    | zero t => rfl
  | finite s =>
    cases y with
    | notANumber => cases hy
    | infinity t => cases s <;> cases t <;> rfl
    | finite t => cases s <;> cases t <;> rfl
    | zero t => cases s <;> rfl

variable {x y : Float}

theorem not_lt_iff (hx : x.isNaN = false) (hy : y.isNaN = false) : ¬x < y ↔ y ≤ x := by
  obtain ⟨c, hc⟩ := Option.isSome_iff_exists.mp (isSome_compare hx hy)
  have swapped := compare_swap x.toModel.unpack y.toModel.unpack
  rw [hc] at swapped
  change ¬decide (x.toModel.unpack.lt y.toModel.unpack = true) = true ↔
    decide (y.toModel.unpack.le x.toModel.unpack = true) = true
  simp only [UnpackedFloat.lt, UnpackedFloat.le, hc, swapped]
  cases c <;> decide

theorem le_of_lt (h : x < y) : x ≤ y := by
  have lt : x.toModel.unpack.compare y.toModel.unpack = some .lt :=
    beq_iff_eq.mp (of_decide_eq_true h)
  change decide (x.toModel.unpack.le y.toModel.unpack = true) = true
  rw [UnpackedFloat.le, lt]
  rfl

theorem isNaN_of_le (h : x ≤ y) : x.isNaN = false ∧ y.isNaN = false := by
  change decide (x.toModel.unpack.le y.toModel.unpack = true) = true at h
  change x.toModel.unpack.isNaN = false ∧ y.toModel.unpack.isNaN = false
  generalize x.toModel.unpack = a at *
  generalize y.toModel.unpack = b at *
  cases a with
  | notANumber => cases b <;> cases h
  | _ =>
    refine ⟨rfl, ?_⟩
    cases b with
    | notANumber => cases h
    | _ => rfl

theorem isNaN_of_beq (h : (x == y) = true) : y.isNaN = false := by
  change (x.toModel.unpack.compare y.toModel.unpack == some .eq) = true at h
  change y.toModel.unpack.isNaN = false
  generalize x.toModel.unpack = a at *
  generalize y.toModel.unpack = b at *
  cases b with
  | notANumber => cases a <;> cases h
  | _ => rfl

theorem beq_self (hx : x.isNaN = false) : (x == x) = true := by
  change (x.toModel.unpack.compare x.toModel.unpack == some .eq) = true
  obtain ⟨c, hc⟩ := Option.isSome_iff_exists.mp (isSome_compare hx hx)
  have swapped := compare_swap x.toModel.unpack x.toModel.unpack
  rw [hc] at swapped ⊢
  cases c with
  | eq => rfl
  | lt | gt => cases swapped

theorem beq_eq_false_of_lt (h : x < y) : (x == y) = false ∧ (y == x) = false := by
  have lt : x.toModel.unpack.compare y.toModel.unpack = some .lt :=
    beq_iff_eq.mp (of_decide_eq_true h)
  have swapped := compare_swap x.toModel.unpack y.toModel.unpack
  rw [lt] at swapped
  change (x.toModel.unpack.compare y.toModel.unpack == some .eq) = false ∧
    (y.toModel.unpack.compare x.toModel.unpack == some .eq) = false
  rw [lt, swapped]
  decide

end DelayedJobs.Rounding
