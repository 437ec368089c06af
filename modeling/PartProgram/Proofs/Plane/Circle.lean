import Mathlib.Analysis.SpecialFunctions.Complex.Arg
import PartProgram.Proofs.Plane.Sweep

/-! # Arcs over the real numbers

With the functions of real analysis an arc starts on its start point and stays on its circle, and the chord between
two directions is twice the radius times the sine of half the angle between them.
-/

namespace PartProgram

open Real

/-- The functions of plane geometry over the real numbers, which have no texts. -/
noncomputable instance : PlaneFunctions ℝ where
  pi := π
  sin := Real.sin
  cos := Real.cos
  asin := Real.arcsin
  atan2 y x := Complex.arg ⟨x, y⟩
  hypot x y := √(x ^ 2 + y ^ 2)
  text _ := ""

theorem Scalar.toRadians_real (d : ℝ) : toRadians d = d * (π / 180) := toRadians_eq d

theorem Scalar.toRadians_toDegrees (r : ℝ) : toRadians (toDegrees r) = r := by
  have hdegrees : toDegrees r = r * (180 / π) := toDegrees_eq r
  have hpi := pi_ne_zero
  rw [toRadians_real, hdegrees]
  field_simp

theorem Point.distance_real (p q : Point ℝ) : p.distance q = √((p.x - q.x) ^ 2 + (p.y - q.y) ^ 2) := rfl

namespace Arc

section

variable {α : Type} [Scalar α]

/-- The point of the arc after the part `t` of its sweep. -/
def along (a : Arc α) (t : α) : Point α := a.pointAt (a.startAngle + a.sweep * t)

end

section

variable {α : Type} [Field α] [LinearOrder α] [IsStrictOrderedRing α] [FloorRing α] [PlaneFunctions α]

/-- An arc passes through every direction of its sweep. -/
theorem containsAngle_sweep (a : Arc α) {t : α} (ht : 0 ≤ t) (ht' : t ≤ 1) :
    a.containsAngle (a.startAngle + a.sweep * t) = true := by
  have htolerance : (0 : α) < angleTolerance := angleTolerance_pos
  have hmodulo : ∀ d : α, 0 ≤ d → Scalar.modulo d 360 ≤ d := by
    intro d hd
    have hfloor : (0 : α) ≤ ⌊d / 360⌋ := by exact_mod_cast Int.floor_nonneg.mpr (by positivity)
    change d - 360 * (⌊d / 360⌋ : α) ≤ d
    linarith
  rw [containsAngle_eq, decide_eq_true_eq, add_sub_cancel_left, sub_add_cancel_left]
  split
  · rename_i hsweep
    have hpart : a.sweep * t ≤ a.sweep := mul_le_of_le_one_right hsweep ht'
    rw [abs_of_nonneg hsweep]
    linarith [hmodulo _ (mul_nonneg hsweep ht)]
  · rename_i hsweep
    have hneg : 0 ≤ -a.sweep := by linarith
    have hpart : -a.sweep * t ≤ -a.sweep := mul_le_of_le_one_right hneg ht'
    rw [abs_of_neg (not_le.mp hsweep), ← neg_mul]
    linarith [hmodulo _ (mul_nonneg hneg ht)]

end

variable (a : Arc ℝ)

theorem x_pointAt (d : ℝ) : (a.pointAt d).x = a.center.x + a.radius * cos (Scalar.toRadians d) := rfl

theorem y_pointAt (d : ℝ) : (a.pointAt d).y = a.center.y + a.radius * sin (Scalar.toRadians d) := rfl

/-- The chord between two directions. -/
theorem distance_pointAt (d e : ℝ) :
    (a.pointAt d).distance (a.pointAt e) = 2 * |a.radius * sin (Scalar.toRadians (d - e) / 2)| := by
  have hhalf : Scalar.toRadians (d - e) / 2 = (Scalar.toRadians d - Scalar.toRadians e) / 2 := by
    rw [Scalar.toRadians_real, Scalar.toRadians_real, Scalar.toRadians_real]
    ring
  rw [Point.distance_real, x_pointAt, x_pointAt, y_pointAt, y_pointAt, hhalf, ← abs_of_pos (zero_lt_two' ℝ), ← abs_mul,
    ← sqrt_sq_eq_abs]
  congr 1
  rw [add_sub_add_left_eq_sub, add_sub_add_left_eq_sub, ← mul_sub, ← mul_sub, cos_sub_cos, sin_sub_sin]
  have hcircle := sin_sq_add_cos_sq ((Scalar.toRadians d + Scalar.toRadians e) / 2)
  rw [abs_of_pos (zero_lt_two' ℝ)]
  linear_combination (2 * a.radius * sin ((Scalar.toRadians d - Scalar.toRadians e) / 2)) ^ 2 * hcircle

theorem distance_center_pointAt (h : 0 ≤ a.radius) (d : ℝ) : a.center.distance (a.pointAt d) = a.radius := by
  rw [Point.distance_real, x_pointAt, y_pointAt, sub_add_cancel_left, sub_add_cancel_left]
  have hcircle := sin_sq_add_cos_sq (Scalar.toRadians d)
  conv_rhs => rw [← sqrt_sq h]
  congr 1
  linear_combination a.radius ^ 2 * hcircle

/-- An arc whose centre is not its start point starts there. -/
theorem along_zero_ofOffsets (p q : Point ℝ) {i j : ℝ} (hij : i ≠ 0 ∨ j ≠ 0) (w : Winding) :
    (ofOffsets p q i j w).along 0 = p := by
  set z : ℂ := ⟨p.x - (p.x + i), p.y - (p.y + j)⟩ with hz
  have hre : z.re = -i := sub_add_cancel_left _ _
  have him : z.im = -j := sub_add_cancel_left _ _
  have hnorm : √(i ^ 2 + j ^ 2) = ‖z‖ := by
    rw [Complex.norm_eq_sqrt_sq_add_sq, hre, him, neg_sq, neg_sq]
  have hpos : 0 < √(i ^ 2 + j ^ 2) := by
    rw [sqrt_pos]
    rcases hij with hi | hj
    · positivity
    · positivity
  have hradius : (ofOffsets p q i j w).radius = ‖z‖ := by
    have hzero : (Scalar.ofNat 0 : ℝ) = 0 := Nat.cast_zero
    change (if Scalar.ofNat 0 < √(i ^ 2 + j ^ 2) then √(i ^ 2 + j ^ 2) else leastRadius) = _
    rw [hzero, if_pos hpos, hnorm]
  have hangle : Scalar.toRadians ((ofOffsets p q i j w).startAngle + (ofOffsets p q i j w).sweep * 0) = z.arg := by
    rw [mul_zero, add_zero]
    exact Scalar.toRadians_toDegrees z.arg
  ext
  · rw [along, x_pointAt, hangle, hradius, Complex.norm_mul_cos_arg, hre]
    exact add_neg_cancel_right _ _
  · rw [along, y_pointAt, hangle, hradius, Complex.norm_mul_sin_arg, him]
    exact add_neg_cancel_right _ _

/-- Half a circle, clockwise from below its centre. -/
theorem ofOffsets_half_circle :
    ofOffsets (⟨10, 0⟩ : Point ℝ) ⟨10, 10⟩ 0 5 .clockwise = ⟨⟨10, 5⟩, 5, -90, -180⟩ := by
  have hpi := pi_ne_zero
  have hcenter : (⟨10, 0⟩ + ⟨0, 5⟩ : Point ℝ) = ⟨10, 5⟩ := by ext <;> norm_num [Point.add_x, Point.add_y]
  have hdown : direction (⟨10, 5⟩ : Point ℝ) ⟨10, 0⟩ = -90 := by
    have harg : Complex.arg ⟨10 - 10, 0 - 5⟩ = -(π / 2) := by
      rw [sub_self, ← Complex.arg_neg_I, ← Complex.arg_real_mul (-Complex.I) (by norm_num : (0 : ℝ) < 5)]
      congr 1
      apply Complex.ext <;> simp
    change Scalar.toDegrees (Complex.arg ⟨10 - 10, 0 - 5⟩) = -90
    rw [harg, Scalar.toDegrees_eq]
    change -(π / 2) * (180 / π) = -90
    field_simp
    norm_num
  have hup : direction (⟨10, 5⟩ : Point ℝ) ⟨10, 10⟩ = 90 := by
    have harg : Complex.arg ⟨10 - 10, 10 - 5⟩ = π / 2 := by
      rw [sub_self, ← Complex.arg_I, ← Complex.arg_real_mul Complex.I (by norm_num : (0 : ℝ) < 5)]
      congr 1
      apply Complex.ext <;> norm_num
    change Scalar.toDegrees (Complex.arg ⟨10 - 10, 10 - 5⟩) = 90
    rw [harg, Scalar.toDegrees_eq]
    change π / 2 * (180 / π) = 90
    field_simp
    norm_num
  have hradius : √((0 : ℝ) ^ 2 + 5 ^ 2) = 5 := by
    rw [zero_pow two_ne_zero, zero_add]
    exact sqrt_sq (by norm_num)
  have hsweep : sweepDegrees (⟨10, 0⟩ : Point ℝ) ⟨10, 5⟩ ⟨10, 10⟩ .clockwise = 180 := by
    have hmodulo : Scalar.modulo (-90 - 90 : ℝ) 360 = 180 :=
      Scalar.modulo_eq_of (by norm_num) (by norm_num) (n := -1) (by norm_num)
    rw [sweepDegrees_eq_turn, if_pos rfl, hdown, hup, turn, hmodulo, angleTolerance_eq]
    norm_num
  have hzero : (Scalar.ofNat 0 : ℝ) = 0 := Nat.cast_zero
  have hlength : (if (Scalar.ofNat 0 : ℝ) < √(0 ^ 2 + 5 ^ 2) then √(0 ^ 2 + 5 ^ 2) else leastRadius) = (5 : ℝ) := by
    rw [hradius, hzero, if_pos (by norm_num)]
  rw [ofOffsets]
  simp only [hcenter, hsweep]
  exact congr (congr (congrArg (Arc.mk _) hlength) hdown) rfl

end Arc

end PartProgram
