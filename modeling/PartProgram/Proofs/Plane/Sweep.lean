import PartProgram.Proofs.Plane.Arc

/-! # How far an arc turns

The turn of an arc is the difference between the directions of its ends, brought into one turn of the circle.
Directions that agree up to the tolerance count as one, and the arc between them is a full circle. All of this is
arithmetic of angles: it holds whatever direction a vector is given.
-/

namespace PartProgram

variable {α : Type} [Field α] [LinearOrder α] [IsStrictOrderedRing α] [FloorRing α] [PlaneFunctions α]

namespace Scalar

omit [IsStrictOrderedRing α] in
theorem exists_modulo_eq (d : α) : ∃ n : ℤ, modulo d 360 = d - n * 360 :=
  ⟨⌊d / 360⌋, congrArg (d - ·) (mul_comm _ _)⟩

theorem modulo_nonneg (d : α) : 0 ≤ modulo d 360 := by
  have hfloor := (le_div_iff₀ (by norm_num : (0 : α) < 360)).mp (Int.floor_le (d / 360))
  change 0 ≤ d - 360 * (⌊d / 360⌋ : α)
  linarith

theorem modulo_lt (d : α) : modulo d 360 < 360 := by
  have hfloor := (div_lt_iff₀ (by norm_num : (0 : α) < 360)).mp (Int.lt_floor_add_one (d / 360))
  change d - 360 * (⌊d / 360⌋ : α) < 360
  linarith

/-- Only one number of a turn differs from `d` by full circles. -/
theorem modulo_eq_of {d r : α} (hnonneg : 0 ≤ r) (hlt : r < 360) {n : ℤ} (hr : d = r + n * 360) :
    modulo d 360 = r := by
  have hfloor : ⌊r / 360⌋ = 0 :=
    Int.floor_eq_zero_iff.mpr ⟨by positivity, (div_lt_one (by norm_num)).mpr hlt⟩
  rw [hr, modulo_add_turns]
  change r - 360 * (⌊r / 360⌋ : α) = r
  rw [hfloor, Int.cast_zero, mul_zero, sub_zero]

theorem modulo_neg (d : α) : modulo (-d) 360 = if modulo d 360 = 0 then 0 else 360 - modulo d 360 := by
  obtain ⟨n, hn⟩ := exists_modulo_eq d
  have hnonneg := modulo_nonneg d
  have hlt := modulo_lt d
  split
  · rename_i hzero
    exact modulo_eq_of le_rfl (by norm_num) (n := -n) (by push_cast; linarith)
  · rename_i hne
    have hpos : 0 < modulo d 360 := lt_of_le_of_ne hnonneg (Ne.symm hne)
    exact modulo_eq_of (by linarith) (by linarith) (n := -n - 1) (by push_cast; linarith)

end Scalar

namespace Arc

/-! ### One turn of the circle -/

/-- The turn that a difference of directions stands for. -/
def turn (d : α) : α := if Scalar.modulo d 360 < angleTolerance then 360 else Scalar.modulo d 360

omit [IsStrictOrderedRing α] in
theorem sweepDegrees_eq_turn (p c q : Point α) (w : Winding) : sweepDegrees p c q w =
    turn (if w = .clockwise then direction c p - direction c q else direction c q - direction c p) :=
  sweepDegrees_eq p c q w

theorem turn_le (d : α) : turn d ≤ 360 := by
  rw [turn]
  split
  · exact le_rfl
  · exact (Scalar.modulo_lt d).le

/-- A turn differs from the difference of directions by full circles, up to the tolerance. -/
theorem exists_abs_turn_sub_lt (d : α) : ∃ n : ℤ, |turn d - d - n * 360| < angleTolerance := by
  obtain ⟨n, hn⟩ := Scalar.exists_modulo_eq d
  rw [turn]
  split
  · rename_i hlt
    refine ⟨1 - n, ?_⟩
    have hrest : 360 - d - ((1 - n : ℤ) : α) * 360 = -Scalar.modulo d 360 := by
      rw [hn]
      push_cast
      ring
    rw [hrest, abs_neg, abs_of_nonneg (Scalar.modulo_nonneg d)]
    exact hlt
  · refine ⟨-n, ?_⟩
    have hrest : Scalar.modulo d 360 - d - ((-n : ℤ) : α) * 360 = 0 := by
      rw [hn]
      push_cast
      ring
    rw [hrest, abs_zero]
    exact angleTolerance_pos

/-- A number is as far from all full circles as it is from the two around it. -/
theorem forall_le_abs_sub_iff {t d : α} :
    (∀ n : ℤ, t ≤ |d - n * 360|) ↔ t ≤ Scalar.modulo d 360 ∧ t ≤ 360 - Scalar.modulo d 360 := by
  obtain ⟨m, hm⟩ := Scalar.exists_modulo_eq d
  have hnonneg := Scalar.modulo_nonneg d
  have hlt := Scalar.modulo_lt d
  constructor
  · intro hfar
    have hbelow := hfar m
    have habove := hfar (m + 1)
    have hnext : d - ((m + 1 : ℤ) : α) * 360 = -(360 - Scalar.modulo d 360) := by
      rw [hm]
      push_cast
      ring
    rw [← hm, abs_of_nonneg hnonneg] at hbelow
    rw [hnext, abs_neg, abs_of_pos (by linarith)] at habove
    exact ⟨hbelow, habove⟩
  · rintro ⟨hbelow, habove⟩ n
    rcases le_or_gt n m with hn | hn
    · have hcast : (n : α) ≤ m := by exact_mod_cast hn
      exact (by linarith : t ≤ d - n * 360).trans (le_abs_self _)
    · have hcast : (m : α) + 1 ≤ n := by exact_mod_cast hn
      exact (by linarith : t ≤ -(d - n * 360)).trans (neg_le_abs _)

/-- The two ways around make a full circle unless the directions agree up to the tolerance. -/
theorem turn_add_turn_neg_iff (d : α) : turn d + turn (-d) = 360 ↔ ∀ n : ℤ, angleTolerance ≤ |d - n * 360| := by
  have htolerance : (0 : α) < angleTolerance := angleTolerance_pos
  have hnonneg := Scalar.modulo_nonneg d
  have hlt := Scalar.modulo_lt d
  rw [forall_le_abs_sub_iff, turn, turn, Scalar.modulo_neg]
  by_cases hzero : Scalar.modulo d 360 = 0
  · rw [if_pos hzero, hzero, if_pos htolerance]
    constructor
    · intro hsum
      norm_num at hsum
    · intro hfar
      exact absurd hfar.1 (not_le.mpr htolerance)
  · have hpos : 0 < Scalar.modulo d 360 := lt_of_le_of_ne hnonneg (Ne.symm hzero)
    rw [if_neg hzero]
    split_ifs with hbelow habove habove
    · constructor
      · intro hsum
        norm_num at hsum
      · intro hfar
        exact absurd hfar.1 (not_le.mpr hbelow)
    · constructor
      · intro hsum
        linarith
      · intro hfar
        exact absurd hfar.1 (not_le.mpr hbelow)
    · constructor
      · intro hsum
        linarith
      · intro hfar
        exact absurd hfar.2 (not_le.mpr habove)
    · constructor
      · intro _
        exact ⟨not_lt.mp hbelow, not_lt.mp habove⟩
      · intro _
        ring

/-! ### The turn of an arc -/

omit [IsStrictOrderedRing α] in
/-- The same turn, run the other way. -/
theorem sweepDegrees_flip (p c q : Point α) (w : Winding) : sweepDegrees q c p w.flip = sweepDegrees p c q w := by
  rw [sweepDegrees_eq_turn, sweepDegrees_eq_turn]
  cases w <;> rfl

theorem sweepDegrees_add_iff (p c q : Point α) :
    sweepDegrees p c q .clockwise + sweepDegrees p c q .counterclockwise = 360 ↔
      ∀ n : ℤ, angleTolerance ≤ |direction c p - direction c q - n * 360| := by
  rw [sweepDegrees_eq_turn, sweepDegrees_eq_turn, if_pos rfl, if_neg (by decide), ← neg_sub (direction c p)]
  exact turn_add_turn_neg_iff _

/-- A centre on the start point is given a small circle. -/
theorem radius_ofOffsets_pos (p q : Point α) (i j : α) (w : Winding) : 0 < (ofOffsets p q i j w).radius := by
  have hzero : (Scalar.ofNat 0 : α) = 0 := Nat.cast_zero
  have hleast : (leastRadius : α) = 1 / 10 ^ 7 := by
    change Decimal.value ⟨false, 1, -7⟩ = _
    simp [Decimal.value, zpow_neg]
  change 0 < if Scalar.ofNat 0 < Scalar.hypot i j then Scalar.hypot i j else leastRadius
  rw [hzero, hleast]
  split
  · assumption
  · positivity

omit [IsStrictOrderedRing α] in
theorem sweep_ofOffsets (p q : Point α) (i j : α) (w : Winding) :
    let a := ofOffsets p q i j w
    a.sweep = if w = .clockwise then -turn (direction a.center p - direction a.center q)
      else turn (direction a.center q - direction a.center p) := by
  intro a
  cases w with
  | clockwise => exact congrArg (- ·) (sweepDegrees_eq_turn p a.center q .clockwise)
  | counterclockwise => exact sweepDegrees_eq_turn p a.center q .counterclockwise

theorem abs_sweep_ofOffsets (p q : Point α) (i j : α) (w : Winding) :
    |(ofOffsets p q i j w).sweep| = sweepDegrees p (p + ⟨i, j⟩) q w := by
  have hpos := sweepDegrees_pos p (p + ⟨i, j⟩) q w
  cases w with
  | clockwise => exact (abs_neg _).trans (abs_of_pos hpos)
  | counterclockwise => exact abs_of_pos hpos

theorem abs_sweep_ofOffsets_le (p q : Point α) (i j : α) (w : Winding) : |(ofOffsets p q i j w).sweep| ≤ 360 := by
  rw [abs_sweep_ofOffsets, sweepDegrees_eq_turn]
  exact turn_le _

/-- An arc ends in the direction of its end point, full circles and the tolerance aside. -/
theorem exists_abs_endAngle_sub_lt (p q : Point α) (i j : α) (w : Winding) :
    let a := ofOffsets p q i j w
    ∃ n : ℤ, |a.endAngle - direction a.center q - n * 360| < angleTolerance := by
  intro a
  have hend : a.endAngle = direction a.center p + a.sweep := rfl
  have hsweep : a.sweep = _ := sweep_ofOffsets p q i j w
  cases w with
  | clockwise =>
      obtain ⟨n, hn⟩ := exists_abs_turn_sub_lt (direction a.center p - direction a.center q)
      have hrest : a.endAngle - direction a.center q - ((-n : ℤ) : α) * 360 =
          -(turn (direction a.center p - direction a.center q) - (direction a.center p - direction a.center q) -
            n * 360) := by
        rw [hend, hsweep, if_pos rfl]
        push_cast
        ring
      exact ⟨-n, by rwa [hrest, abs_neg]⟩
  | counterclockwise =>
      obtain ⟨n, hn⟩ := exists_abs_turn_sub_lt (direction a.center q - direction a.center p)
      have hrest : a.endAngle - direction a.center q - n * 360 =
          turn (direction a.center q - direction a.center p) - (direction a.center q - direction a.center p) -
            n * 360 := by
        rw [hend, hsweep, if_neg (by decide)]
        ring
      exact ⟨n, by rwa [hrest]⟩

/-- An arc turns by more than nothing and at most a full circle, clockwise if and only if its sweep is negative, on
a circle that is not a point, and its end has the direction of its end point. Run the other way between exchanged
ends it turns as far. The two ways around from one end to the other make a full circle together if and only if the
directions of the ends differ by at least the tolerance, full circles aside. -/
theorem turns_once (start finish : Point α) (i j : α) (winding : Winding) :
    let a := ofOffsets start finish i j winding
    (0 < |a.sweep| ∧ |a.sweep| ≤ 360) ∧ (a.sweep < 0 ↔ winding = .clockwise) ∧ 0 < a.radius ∧
      (∃ n : ℤ, |a.endAngle - direction a.center finish - n * 360| < 1 / 10 ^ 9) ∧
      (∀ center, sweepDegrees finish center start winding.flip = sweepDegrees start center finish winding) ∧
      ∀ center, sweepDegrees start center finish .clockwise + sweepDegrees start center finish .counterclockwise = 360 ↔
        ∀ n : ℤ, 1 / 10 ^ 9 ≤ |direction center start - direction center finish - n * 360| := by
  intro a
  have hmagnitude : |a.sweep| = sweepDegrees start (start + ⟨i, j⟩) finish winding :=
    abs_sweep_ofOffsets start finish i j winding
  have hclockwise : a.isClockwise = decide (winding = .clockwise) :=
    isClockwise_ofOffsets start finish i j winding
  have hend := exists_abs_endAngle_sub_lt start finish i j winding
  rw [angleTolerance_eq] at hend
  refine ⟨⟨?_, ?_⟩, ?_, radius_ofOffsets_pos start finish i j winding, hend, ?_, ?_⟩
  · rw [hmagnitude]
    exact sweepDegrees_pos _ _ _ _
  · exact abs_sweep_ofOffsets_le start finish i j winding
  · rw [isClockwise_eq] at hclockwise
    exact decide_eq_decide.mp hclockwise
  · exact fun center => sweepDegrees_flip start center finish winding
  · intro center
    rw [← angleTolerance_eq]
    exact sweepDegrees_add_iff start center finish

/-- Half a circle, the other half, and a full circle. -/
theorem turns_once_half_circle :
    let _ := PlaneFunctions.axial
    let a : Arc ℚ := ofOffsets ⟨10, 0⟩ ⟨10, 10⟩ 0 5 .clockwise
    let turned (finish : Point ℚ) (winding : Winding) : ℚ := sweepDegrees ⟨10, 0⟩ ⟨10, 5⟩ finish winding
    a.sweep = -180 ∧ (0 < |a.sweep| ∧ |a.sweep| ≤ 360) ∧ 0 < a.radius ∧
      (∃ n : ℤ, |a.endAngle - direction a.center ⟨10, 10⟩ - n * 360| < 1 / 10 ^ 9) ∧
      turned ⟨10, 10⟩ .clockwise + turned ⟨10, 10⟩ .counterclockwise = 360 ∧
      turned ⟨10, 0⟩ .clockwise + turned ⟨10, 0⟩ .counterclockwise = 720 := by
  intro _ a turned
  obtain ⟨hmagnitude, -, hradius, hend, -, -⟩ := turns_once (⟨10, 0⟩ : Point ℚ) ⟨10, 10⟩ 0 5 .clockwise
  exact ⟨by decide +kernel, hmagnitude, hradius, hend, by decide +kernel, by decide +kernel⟩

end Arc

end PartProgram
