import Mathlib.Algebra.Order.Floor.Ring
import Mathlib.Order.Bounds.Basic
import PartProgram.Drawing.Overlay
import PartProgram.Proofs.Plane.Map

/-! # What a viewer shows

The view is rounded to the grid of the unit, it begins left of and below zero, and it begins before the extent.
It is grown by a factor, which moves an end beyond zero outwards and an end before zero inwards: an extent that
ends before zero is held only if no line of the grid lies between its end and where the factor moves it.
-/

namespace PartProgram

/-- The number is a whole multiple of the step. -/
def IsMultiple {α : Type} [Field α] (step v : α) : Prop := ∃ n : ℤ, v = n * step

variable {α : Type} [Field α] [LinearOrder α] [FloorRing α] [PlaneFunctions α]

namespace Extent

/-- Where the view of an extent begins that begins at `v`. -/
def viewStart (step v : α) : α :=
  let r := ⌊v * viewMargin / step⌋ * step
  if 0 ≤ r then -step else r

/-- Where the view of an extent ends that ends at `v`. -/
def viewEnd (step v : α) : α := ⌈v * viewMargin / step⌉ * step

theorem view_eq (e : Extent α) (unit : LengthUnit) :
    let step : α := unit.extentStep
    e.view unit = (⟨viewStart step e.min.x, viewStart step e.min.y⟩, ⟨viewEnd step e.max.x, viewEnd step e.max.y⟩) := by
  have hzero : (Scalar.ofNat 0 : α) = 0 := Nat.cast_zero
  simp only [view, viewStart, OfNat.ofNat, hzero]
  rfl

theorem along_view_fst (e : Extent α) (unit : LengthUnit) (m : MirrorAxis) :
    m.along (e.view unit).1 = viewStart unit.extentStep (m.along e.min) := by
  rw [view_eq]
  cases m <;> rfl

theorem along_view_snd (e : Extent α) (unit : LengthUnit) (m : MirrorAxis) :
    m.along (e.view unit).2 = viewEnd unit.extentStep (m.along e.max) := by
  rw [view_eq]
  cases m <;> rfl

theorem isMultiple_viewStart (step v : α) : IsMultiple step (viewStart step v) := by
  rw [viewStart]
  split
  · exact ⟨-1, by simp⟩
  · exact ⟨_, rfl⟩

theorem isMultiple_viewEnd (step v : α) : IsMultiple step (viewEnd step v) := ⟨_, rfl⟩

variable [IsStrictOrderedRing α]

omit [IsStrictOrderedRing α] in
theorem viewMargin_eq : (viewMargin : α) = 101 / 100 := by
  change Decimal.value ⟨false, 101, -2⟩ = _
  norm_num [Decimal.value, zpow_neg]

theorem extentStep_pos (unit : LengthUnit) : (0 : α) < unit.extentStep := by
  cases unit with
  | millimeter =>
      have hfive : (Scalar.ofNat 5 : α) = 5 := Nat.cast_ofNat
      change 0 < (Scalar.ofNat 5 : α)
      rw [hfive]
      norm_num
  | inch =>
      change 0 < (Decimal.value ⟨false, 25, -2⟩ : α)
      norm_num [Decimal.value, zpow_neg]

/-- Growth moves a number away from zero. -/
theorem le_mul_viewMargin_iff {v : α} : v ≤ v * viewMargin ↔ 0 ≤ v := by
  rw [viewMargin_eq]
  constructor <;> intro h <;> linarith

variable {step : α} (hstep : 0 < step)

include hstep

theorem viewStart_neg (v : α) : viewStart step v < 0 := by
  rw [viewStart]
  split
  · exact neg_lt_zero.mpr hstep
  · exact not_le.mp ‹_›

theorem viewStart_le (v : α) : viewStart step v ≤ v := by
  have hfloor : ⌊v * viewMargin / step⌋ * step ≤ v * viewMargin := (le_div_iff₀ hstep).mp (Int.floor_le _)
  rw [viewMargin_eq] at hfloor
  rw [viewStart, viewMargin_eq]
  split
  · -- the grown number is not before zero, and neither is the number itself
    linarith
  · rcases le_total 0 v with hv | hv <;> linarith

/-- The view ends on the first line of the grid that the grown extent does not reach beyond. -/
theorem isLeast_viewEnd (v : α) : IsLeast {w | IsMultiple step w ∧ v * viewMargin ≤ w} (viewEnd step v) := by
  refine ⟨⟨isMultiple_viewEnd step v, (div_le_iff₀ hstep).mp (Int.le_ceil _)⟩, ?_⟩
  rintro w ⟨⟨n, rfl⟩, hle⟩
  have hceil : ⌈v * viewMargin / step⌉ ≤ n := Int.ceil_le.mpr ((div_le_iff₀ hstep).mpr hle)
  exact mul_le_mul_of_nonneg_right (Int.cast_le.mpr hceil) hstep.le

/-- The view holds the end of the extent unless a line of the grid lies between the grown end and the end. -/
theorem le_viewEnd_iff (v : α) : v ≤ viewEnd step v ↔ ¬∃ w, IsMultiple step w ∧ v * viewMargin ≤ w ∧ w < v := by
  have hleast := isLeast_viewEnd hstep v
  constructor
  · rintro hle ⟨w, hmultiple, hgrown, hlt⟩
    exact absurd (hle.trans (hleast.2 ⟨hmultiple, hgrown⟩)) (not_le.mpr hlt)
  · intro hnone
    by_contra hlt
    exact hnone ⟨_, hleast.1.1, hleast.1.2, not_le.mp hlt⟩

/-- An end that is not before zero is held. -/
theorem le_viewEnd_of_nonneg {v : α} (hv : 0 ≤ v) : v ≤ viewEnd step v :=
  (le_mul_viewMargin_iff.mpr hv).trans (isLeast_viewEnd hstep v).1.2

omit hstep

/-- On both axes, the view begins before the extent and before zero and is rounded to the grid of the unit. It
ends behind the extent if and only if no line of the grid lies between the grown end of the extent and that end,
so always where the extent reaches zero. -/
theorem view_covers (e : Extent α) (unit : LengthUnit) (m : MirrorAxis) :
    let step : α := unit.extentStep
    let first := m.along (e.view unit).1
    let last := m.along (e.view unit).2
    IsMultiple step first ∧ IsMultiple step last ∧ first < 0 ∧ first ≤ m.along e.min ∧
      (m.along e.max ≤ last ↔
        ¬∃ w, IsMultiple step w ∧ m.along e.max * viewMargin ≤ w ∧ w < m.along e.max) ∧
      (0 ≤ m.along e.max → m.along e.max ≤ last) := by
  intro step first last
  have hfirst : first = viewStart step (m.along e.min) := e.along_view_fst unit m
  have hlast : last = viewEnd step (m.along e.max) := e.along_view_snd unit m
  have hstep : 0 < step := extentStep_pos unit
  rw [hfirst, hlast]
  exact ⟨isMultiple_viewStart step _, isMultiple_viewEnd step _, viewStart_neg hstep _, viewStart_le hstep _,
    le_viewEnd_iff hstep _, le_viewEnd_of_nonneg hstep⟩

/-- An extent that ends half a unit behind a line of the grid, below zero, reaches out of its view. -/
theorem view_misses_end :
    let _ := PlaneFunctions.straight
    let e : Extent ℚ := { x := some ⟨-120, -199 / 2⟩, y := some ⟨-120, -199 / 2⟩ }
    e.isEmpty = false ∧ (e.view .millimeter).1.x ≤ e.min.x ∧ ¬e.max.x ≤ (e.view .millimeter).2.x := by
  intro _ e
  obtain ⟨-, -, -, hfirst, hlast, -⟩ := view_covers e .millimeter .x
  refine ⟨rfl, hfirst, fun hle => hlast.mp hle ⟨-100, ⟨-20, ?_⟩, ?_, ?_⟩⟩
  · decide +kernel
  · decide +kernel
  · decide +kernel

end Extent

end PartProgram
