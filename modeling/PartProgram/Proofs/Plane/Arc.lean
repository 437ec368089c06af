import PartProgram.Proofs.Plane.Map

/-! # Arcs under maps of the plane

A shift takes an arc along as it is. A mirror turns it the other way, and then its ends and the quadrant
points that it passes through are the images of those of the arc, as far as the plane functions are as
symmetric as their names say.
-/

namespace PartProgram

/-! ### How far an arc turns -/

namespace Arc

section

variable {α : Type} [Scalar α]

/-- The point of the full circle in the given direction, if the arc passes through it. -/
def reach (a : Arc α) (degrees : α) : Option (Point α) :=
  if a.containsAngle degrees then some (a.pointAt degrees) else none

/-- The points by which the arc grows an extent. -/
def boxPoints (a : Arc α) : List (Point α) :=
  a.pointAt a.startAngle :: a.pointAt a.endAngle :: Extent.quadrants.filterMap a.reach

theorem includeArc_eq (e : Extent α) (a : Arc α) : e.includeArc a = a.boxPoints.foldl Extent.includeXY e := by
  have hquadrants : ∀ (e : Extent α) (qs : List α),
      qs.foldl (fun e q => if a.containsAngle q then e.includeXY (a.pointAt q) else e) e =
        (qs.filterMap a.reach).foldl Extent.includeXY e := by
    intro e qs
    induction qs generalizing e with
    | nil => rfl
    | cons q qs ih =>
        rw [List.foldl_cons, ih, List.filterMap_cons, reach]
        cases a.containsAngle q <;> rfl
  exact hquadrants _ _

end

variable {α : Type} [Field α] [LinearOrder α] [IsStrictOrderedRing α] [FloorRing α] [PlaneFunctions α]

omit [IsStrictOrderedRing α] in
theorem angleTolerance_eq : (angleTolerance : α) = 1 / 10 ^ 9 := by
  change Decimal.value ⟨false, 1, -9⟩ = _
  simp [Decimal.value, zpow_neg]

theorem angleTolerance_pos : (0 : α) < angleTolerance := by
  rw [angleTolerance_eq]
  positivity

/-- Every arc turns. -/
theorem sweepDegrees_pos (start center finish : Point α) (winding : Winding) :
    0 < sweepDegrees start center finish winding := by
  have hcircle : (0 : α) < Scalar.ofNat 360 := Nat.cast_pos.mpr (by decide)
  have hturn : ∀ sweep : α, 0 < if sweep < angleTolerance then Scalar.ofNat 360 else sweep := by
    intro sweep
    split
    · exact hcircle
    · rename_i hsweep
      exact angleTolerance_pos.trans_le (not_lt.mp hsweep)
  exact hturn _

omit [IsStrictOrderedRing α] in
theorem isClockwise_eq (a : Arc α) : a.isClockwise = decide (a.sweep < 0) := by
  have hzero : (Scalar.ofNat 0 : α) = 0 := Nat.cast_zero
  change decide (a.sweep < Scalar.ofNat 0) = _
  simp only [hzero]

theorem isClockwise_ofOffsets (start finish : Point α) (i j : α) (winding : Winding) :
    (ofOffsets start finish i j winding).isClockwise = decide (winding = .clockwise) := by
  have hpos := sweepDegrees_pos start (start + ⟨i, j⟩) finish winding
  rw [isClockwise_eq]
  cases winding with
  | clockwise => simpa [ofOffsets] using hpos
  | counterclockwise => exact decide_eq_false (not_lt.mpr hpos.le)

end Arc

/-! ### Shifts -/

namespace Arc

variable {α : Type} [Field α] [LinearOrder α] [IsStrictOrderedRing α] [FloorRing α] [PlaneFunctions α]

omit [IsStrictOrderedRing α] in
/-- A shift of both ends takes the arc along. -/
theorem ofOffsets_sub (p q delta : Point α) (i j : α) (w : Winding) :
    ofOffsets (p - delta) (q - delta) i j w =
      { ofOffsets p q i j w with center := (ofOffsets p q i j w).center - delta } := by
  have hcenter : p - delta + ⟨i, j⟩ = p + ⟨i, j⟩ - delta := by
    ext
    · change p.x - delta.x + i = p.x + i - delta.x
      ring
    · change p.y - delta.y + j = p.y + j - delta.y
      ring
  simp only [ofOffsets, sweepDegrees, Point.add_x, Point.add_y, Point.sub_x, Point.sub_y,
    sub_sub_sub_cancel_right, hcenter]

omit [IsStrictOrderedRing α] in
/-- The box of an arc goes along with it. -/
theorem boxPoints_sub (a : Arc α) (delta : Point α) :
    boxPoints { a with center := a.center - delta } = a.boxPoints.map fun p => p - delta := by
  have hpoint : ∀ degrees, pointAt { a with center := a.center - delta } degrees = a.pointAt degrees - delta := by
    intro degrees
    ext
    · exact sub_add_eq_add_sub _ _ _
    · exact sub_add_eq_add_sub _ _ _
  have hreach : reach { a with center := a.center - delta } = fun degrees =>
      (a.reach degrees).map fun p => p - delta := by
    funext degrees
    rw [reach, reach, hpoint]
    change (if a.containsAngle degrees = true then _ else _) = _
    split <;> rfl
  simp only [boxPoints, List.map_cons, List.map_filterMap, hreach, hpoint]
  rfl

end Arc

/-! ### Mirrors -/

/-- What the plane functions do under the symmetries of the plane. -/
structure PlaneFunctions.Symmetric (α : Type) [Field α] [PlaneFunctions α] : Prop where
  pi_ne_zero : (pi : α) ≠ 0
  sin_neg : ∀ t : α, sin (-t) = -sin t
  cos_neg : ∀ t : α, cos (-t) = cos t
  sin_pi_sub : ∀ t : α, sin (pi - t) = sin t
  cos_pi_sub : ∀ t : α, cos (pi - t) = -cos t
  sin_add_turns : ∀ (t : α) (n : ℤ), sin (t + n * (2 * pi)) = sin t
  cos_add_turns : ∀ (t : α) (n : ℤ), cos (t + n * (2 * pi)) = cos t
  /-- The origin has no direction. -/
  atan2_neg : ∀ x y : α, x ≠ 0 ∨ y ≠ 0 → ∃ n : ℤ, atan2 (-y) x = -atan2 y x + n * (2 * pi)
  atan2_pi_sub : ∀ x y : α, x ≠ 0 ∨ y ≠ 0 → ∃ n : ℤ, atan2 y (-x) = pi - atan2 y x + n * (2 * pi)
  hypot_neg : ∀ x y : α, hypot (-x) y = hypot x y ∧ hypot x (-y) = hypot x y

/-- The fraction of a turn in the opposite direction, and in the direction that half a turn takes it to. -/
theorem fract_neg_and_half_sub (x : ℚ) :
    ∃ f, 0 ≤ f ∧ f < 1 ∧ Int.fract x = f ∧ Int.fract (-x) = (if f = 0 then 0 else 1 - f) ∧
      Int.fract (1 / 2 - x) = if f ≤ 1 / 2 then 1 / 2 - f else 3 / 2 - f := by
  have hnonneg := Int.fract_nonneg x
  have hlt := Int.fract_lt_one x
  have hfloor := Int.floor_add_fract x
  refine ⟨Int.fract x, hnonneg, hlt, rfl, ?_, ?_⟩
  · split
    · rename_i hzero
      exact Int.fract_neg_eq_zero.mpr hzero
    · rename_i hpos
      exact Int.fract_neg hpos
  · split
    · refine Int.fract_eq_iff.mpr ⟨by linarith, by linarith, -⌊x⌋, ?_⟩
      push_cast
      linarith
    · refine Int.fract_eq_iff.mpr ⟨by linarith, by linarith, -⌊x⌋ - 1, ?_⟩
      push_cast
      linarith

/-- Functions that are right in the directions of the axes have these symmetries everywhere. -/
theorem PlaneFunctions.symmetric_axial : @Symmetric ℚ _ axial := by
  have hturn : (2 * (355 / 113) : ℚ) ≠ 0 := by norm_num
  have hturns : ∀ (t : ℚ) (n : ℤ), Int.fract ((t + n * (2 * (355 / 113))) / (2 * (355 / 113))) =
      Int.fract (t / (2 * (355 / 113))) := by
    intro t n
    rw [add_div, mul_div_cancel_right₀ _ hturn, Int.fract_add_intCast]
  have hhalf : ∀ t : ℚ, (355 / 113 - t) / (2 * (355 / 113)) = 1 / 2 - t / (2 * (355 / 113)) := by
    intro t
    ring
  refine @Symmetric.mk ℚ _ axial ?_ ?_ ?_ ?_ ?_ ?_ ?_ ?_ ?_ ?_
  · exact (by norm_num : (355 / 113 : ℚ) ≠ 0)
  · intro t
    obtain ⟨f, hnonneg, hlt, hf, hneg, -⟩ := fract_neg_and_half_sub (t / (2 * (355 / 113)))
    simp only [sin, neg_div, hneg, hf]
    grind
  · intro t
    obtain ⟨f, hnonneg, hlt, hf, hneg, -⟩ := fract_neg_and_half_sub (t / (2 * (355 / 113)))
    simp only [cos, neg_div, hneg, hf]
    grind
  · intro t
    obtain ⟨f, hnonneg, hlt, hf, -, hsub⟩ := fract_neg_and_half_sub (t / (2 * (355 / 113)))
    simp only [sin, pi, hhalf, hsub, hf]
    grind
  · intro t
    obtain ⟨f, hnonneg, hlt, hf, -, hsub⟩ := fract_neg_and_half_sub (t / (2 * (355 / 113)))
    simp only [cos, pi, hhalf, hsub, hf]
    grind
  · intro t n
    simp only [sin, pi, hturns]
  · intro t n
    simp only [cos, pi, hturns]
  · intro x y hxy
    simp only [atan2, pi]
    rcases lt_trichotomy y 0 with hy | rfl | hy
    · exact ⟨0, by grind⟩
    · rcases lt_or_ge x 0 with hx | hx
      · exact ⟨1, by grind⟩
      · exact ⟨0, by grind⟩
    · exact ⟨0, by grind⟩
  · intro x y hxy
    simp only [atan2, pi]
    rcases lt_trichotomy y 0 with hy | rfl | hy
    · exact ⟨-1, by grind⟩
    · exact ⟨0, by grind⟩
    · exact ⟨0, by grind⟩
  · intro x y
    simp [hypot]

/-- What a mirror multiplies a coordinate by. -/
def MirrorAxis.sign {α : Type} [Field α] (m k : MirrorAxis) : α := if k = m then -1 else 1

/-- The reflection that takes a coordinate to `sum` less it, and leaves the other one alone. -/
def PlaneMap.mirror {α : Type} [Field α] (m : MirrorAxis) (sum : α) : PlaneMap α :=
  ⟨m.sign, fun k => if k = m then sum else 0⟩

namespace PlaneMap

variable {α : Type} [Field α] (m : MirrorAxis) (s : α)

theorem coordinate_mirror (v : α) : (mirror m s).coordinate m v = s - v := by
  simp only [coordinate, mirror, MirrorAxis.sign, if_true]
  ring

theorem coordinate_mirror_of_ne {k : MirrorAxis} (h : k ≠ m) (v : α) : (mirror m s).coordinate k v = v := by
  simp only [coordinate, mirror, MirrorAxis.sign, if_neg h]
  ring

theorem range_mirror [LinearOrder α] [IsStrictOrderedRing α] (r : Range α) :
    (mirror m s).range m r = ⟨s - r.hi, s - r.lo⟩ := by
  have hfactor : ¬0 ≤ (mirror m s).factor m := by
    simp only [mirror, MirrorAxis.sign, if_true]
    norm_num
  rw [range, if_neg hfactor, coordinate_mirror, coordinate_mirror]

end PlaneMap

/-- The direction of X in the mirror, in degrees. -/
def MirrorAxis.straight {α : Type} [Field α] (m : MirrorAxis) : α :=
  match m with
  | x => 180
  | y => 0

section

variable {α : Type} [Field α] [LinearOrder α] [IsStrictOrderedRing α] [FloorRing α] [PlaneFunctions α]

omit [IsStrictOrderedRing α] in
theorem Scalar.toRadians_eq (d : α) : Scalar.toRadians d = d * (PlaneFunctions.pi / 180) := by
  have hhalf : (Scalar.ofNat 180 : α) = 180 := Nat.cast_ofNat
  change d * (PlaneFunctions.pi / Scalar.ofNat 180) = _
  rw [hhalf]

omit [IsStrictOrderedRing α] in
theorem Scalar.toDegrees_eq (r : α) : Scalar.toDegrees r = r * (180 / PlaneFunctions.pi) := by
  have hhalf : (Scalar.ofNat 180 : α) = 180 := Nat.cast_ofNat
  change r * (Scalar.ofNat 180 / PlaneFunctions.pi) = _
  rw [hhalf]

/-- Full circles do not count. -/
theorem Scalar.modulo_add_turns (d : α) (n : ℤ) : Scalar.modulo (d + n * 360) 360 = Scalar.modulo d 360 := by
  change d + n * 360 - 360 * (⌊(d + n * 360) / 360⌋ : α) = d - 360 * (⌊d / 360⌋ : α)
  have hdiv : (d + n * 360) / 360 = d / 360 + n := by
    rw [add_div, mul_div_cancel_right₀ _ (by norm_num)]
  rw [hdiv, Int.floor_add_intCast, Int.cast_add]
  ring

namespace PlaneFunctions.Symmetric

variable (h : Symmetric α)

include h

omit [IsStrictOrderedRing α] in
/-- The point of the unit circle in a mirrored direction. -/
theorem unit_mirrored (m : MirrorAxis) (d : α) (n : ℤ) :
    Scalar.cos (Scalar.toRadians (m.straight - d + n * 360)) =
        m.sign .x * Scalar.cos (Scalar.toRadians d) ∧
      Scalar.sin (Scalar.toRadians (m.straight - d + n * 360)) =
        m.sign .y * Scalar.sin (Scalar.toRadians d) := by
  cases m with
  | x =>
      have hradians : Scalar.toRadians (MirrorAxis.x.straight - d + n * 360) =
          pi - Scalar.toRadians d + n * (2 * pi) := by
        rw [Scalar.toRadians_eq, Scalar.toRadians_eq, MirrorAxis.straight]
        ring
      rw [hradians]
      refine ⟨?_, ?_⟩
      · exact (h.cos_add_turns _ n).trans ((h.cos_pi_sub _).trans (neg_one_mul _).symm)
      · exact (h.sin_add_turns _ n).trans ((h.sin_pi_sub _).trans (one_mul _).symm)
  | y =>
      have hradians : Scalar.toRadians (MirrorAxis.y.straight - d + n * 360) =
          -Scalar.toRadians d + n * (2 * pi) := by
        rw [Scalar.toRadians_eq, Scalar.toRadians_eq, MirrorAxis.straight]
        ring
      rw [hradians]
      refine ⟨?_, ?_⟩
      · exact (h.cos_add_turns _ n).trans ((h.cos_neg _).trans (one_mul _).symm)
      · exact (h.sin_add_turns _ n).trans ((h.sin_neg _).trans (neg_one_mul _).symm)

omit [IsStrictOrderedRing α] in
/-- The direction of a mirrored vector. -/
theorem direction_mirrored (m : MirrorAxis) {x y : α} (hxy : x ≠ 0 ∨ y ≠ 0) :
    ∃ n : ℤ, Scalar.toDegrees (Scalar.atan2 (m.sign .y * y) (m.sign .x * x)) =
      m.straight - Scalar.toDegrees (Scalar.atan2 y x) + n * 360 := by
  have hpi : (pi : α) ≠ 0 := h.pi_ne_zero
  cases m with
  | x =>
      obtain ⟨n, hn⟩ := h.atan2_pi_sub x y hxy
      refine ⟨n, ?_⟩
      change Scalar.toDegrees (atan2 (1 * y) (-1 * x)) = 180 - Scalar.toDegrees (atan2 y x) + n * 360
      rw [one_mul, neg_one_mul, hn, Scalar.toDegrees_eq, Scalar.toDegrees_eq]
      field_simp
      ring
  | y =>
      obtain ⟨n, hn⟩ := h.atan2_neg x y hxy
      refine ⟨n, ?_⟩
      change Scalar.toDegrees (atan2 (-1 * y) (1 * x)) = 0 - Scalar.toDegrees (atan2 y x) + n * 360
      rw [one_mul, neg_one_mul, hn, Scalar.toDegrees_eq, Scalar.toDegrees_eq]
      field_simp
      ring

end PlaneFunctions.Symmetric

omit [IsStrictOrderedRing α] in
theorem Extent.quadrants_eq : (quadrants : List α) = [0, 90, 180, 270] := by
  change [Scalar.ofNat 0, Scalar.ofNat 90, Scalar.ofNat 180, Scalar.ofNat 270] = _
  simp only [show ∀ n, (Scalar.ofNat n : α) = n from fun _ => rfl]
  norm_num

omit [IsStrictOrderedRing α] in
/-- A mirror takes the quadrants to each other. -/
theorem Extent.quadrants_mirrored (m : MirrorAxis) : ∃ qs : List α, qs.Perm quadrants ∧
    List.Forall₂ (fun q q' : α => ∃ n : ℤ, q' = m.straight - q + n * 360) qs quadrants := by
  rw [quadrants_eq]
  cases m with
  | x =>
      refine ⟨[180, 90, 0, 270], (List.reverse_perm [0, 90, 180]).append_right [270], ?_⟩
      refine .cons ⟨0, ?_⟩ (.cons ⟨0, ?_⟩ (.cons ⟨0, ?_⟩ (.cons ⟨1, ?_⟩ .nil))) <;> norm_num [MirrorAxis.straight]
  | y =>
      refine ⟨[0, 270, 180, 90], (List.reverse_perm [90, 180, 270]).cons 0, ?_⟩
      refine .cons ⟨0, ?_⟩ (.cons ⟨1, ?_⟩ (.cons ⟨1, ?_⟩ (.cons ⟨1, ?_⟩ .nil))) <;> norm_num [MirrorAxis.straight]

namespace Arc

theorem containsAngle_eq (a : Arc α) (d : α) : a.containsAngle d =
    decide ((if 0 ≤ a.sweep then Scalar.modulo (d - a.startAngle) 360 else Scalar.modulo (a.startAngle - d) 360) ≤
      |a.sweep| + angleTolerance) := by
  have hzero : (Scalar.ofNat 0 : α) = 0 := Nat.cast_zero
  have hcircle : (Scalar.ofNat 360 : α) = 360 := Nat.cast_ofNat
  rw [← Scalar.abs_eq, ← hzero, ← hcircle]
  rfl

/-- The second arc is the first one in the mirror. It turns the other way. -/
structure Reflects (m : MirrorAxis) (sum : α) (a a' : Arc α) : Prop where
  center : a'.center = (PlaneMap.mirror m sum).point a.center
  radius : a'.radius = a.radius
  startAngle : ∃ n : ℤ, a'.startAngle = m.straight - a.startAngle + n * 360
  sweep : a'.sweep = -a.sweep
  turns : a.sweep ≠ 0

namespace Reflects

variable {m : MirrorAxis} {sum : α} {a a' : Arc α} (ha : a.Reflects m sum a')

include ha

omit [IsStrictOrderedRing α] in
theorem endAngle : ∃ n : ℤ, a'.endAngle = m.straight - a.endAngle + n * 360 := by
  obtain ⟨n, hn⟩ := ha.startAngle
  refine ⟨n, ?_⟩
  change a'.startAngle + a'.sweep = m.straight - (a.startAngle + a.sweep) + n * 360
  rw [hn, ha.sweep]
  ring

omit [IsStrictOrderedRing α] in
theorem pointAt (h : PlaneFunctions.Symmetric α) (d : α) (n : ℤ) :
    a'.pointAt (m.straight - d + n * 360) = (PlaneMap.mirror m sum).point (a.pointAt d) := by
  obtain ⟨hcos, hsin⟩ := h.unit_mirrored m d n
  simp only [Arc.pointAt, hcos, hsin, ha.center, ha.radius]
  ext
  · simp only [PlaneMap.point, PlaneMap.coordinate, PlaneMap.mirror]
    ring
  · simp only [PlaneMap.point, PlaneMap.coordinate, PlaneMap.mirror]
    ring

theorem containsAngle (d : α) (n : ℤ) : a'.containsAngle (m.straight - d + n * 360) = a.containsAngle d := by
  obtain ⟨k, hk⟩ := ha.startAngle
  -- What has been turned counter-clockwise is turned clockwise in the mirror.
  have hafter : m.straight - d + n * 360 - a'.startAngle = a.startAngle - d + (n - k : ℤ) * 360 := by
    rw [hk, Int.cast_sub]
    ring
  have hbefore : a'.startAngle - (m.straight - d + n * 360) = d - a.startAngle + (k - n : ℤ) * 360 := by
    rw [hk, Int.cast_sub]
    ring
  have hsense : 0 ≤ -a.sweep ↔ ¬0 ≤ a.sweep := by
    rw [neg_nonneg, not_le]
    exact ha.turns.le_iff_lt
  rw [containsAngle_eq, containsAngle_eq, hafter, hbefore, Scalar.modulo_add_turns, Scalar.modulo_add_turns, ha.sweep,
    abs_neg]
  simp only [hsense, ite_not]

theorem reach (h : PlaneFunctions.Symmetric α) (d : α) (n : ℤ) :
    a'.reach (m.straight - d + n * 360) = (a.reach d).map (PlaneMap.mirror m sum).point := by
  rw [Arc.reach, Arc.reach, ha.containsAngle, ha.pointAt h]
  split <;> rfl

/-- The points by which the arcs grow an extent are images of each other. -/
theorem boxPoints (h : PlaneFunctions.Symmetric α) :
    a'.boxPoints.Perm (a.boxPoints.map (PlaneMap.mirror m sum).point) := by
  obtain ⟨j, hj⟩ := ha.startAngle
  obtain ⟨k, hk⟩ := ha.endAngle
  obtain ⟨qs, hperm, hqs⟩ : ∃ qs : List α, qs.Perm Extent.quadrants ∧ _ := Extent.quadrants_mirrored m
  have hreached : ∀ {qs qs' : List α}, List.Forall₂ (fun q q' : α => ∃ n : ℤ, q' = m.straight - q + n * 360) qs qs' →
      qs'.filterMap a'.reach = qs.filterMap fun q => (a.reach q).map (PlaneMap.mirror m sum).point := by
    intro qs qs' hqs
    induction hqs with
    | nil => rfl
    | cons hq _ ih =>
        obtain ⟨n, rfl⟩ := hq
        rw [List.filterMap_cons, List.filterMap_cons, ha.reach h, ih]
  simp only [Arc.boxPoints, hj, hk, ha.pointAt h, hreached hqs, List.map_cons, List.map_filterMap]
  exact ((hperm.filterMap _).cons _).cons _

end Reflects

/-! ### Arcs of mirrored blocks -/

/-- The direction from a point to another one, in degrees. -/
def direction (c p : Point α) : α := Scalar.toDegrees (Scalar.atan2 (p.y - c.y) (p.x - c.x))

omit [IsStrictOrderedRing α] in
theorem sweepDegrees_eq (p c q : Point α) (w : Winding) : sweepDegrees p c q w =
    let turned := Scalar.modulo (if w = .clockwise then direction c p - direction c q
      else direction c q - direction c p) 360
    if turned < angleTolerance then 360 else turned := by
  have hcircle : (Scalar.ofNat 360 : α) = 360 := Nat.cast_ofNat
  have hsub : ∀ r s : α, Scalar.toDegrees r - Scalar.toDegrees s = Scalar.toDegrees (r - s) := by
    intro r s
    rw [Scalar.toDegrees_eq, Scalar.toDegrees_eq, Scalar.toDegrees_eq, sub_mul]
  rw [← hcircle]
  cases w <;> simp only [direction, hsub, sweepDegrees] <;> rfl

variable (h : PlaneFunctions.Symmetric α) (m : MirrorAxis) (sum : α)

include h

omit [IsStrictOrderedRing α] in
theorem direction_mirrored {c p : Point α} (hp : p ≠ c) :
    ∃ n : ℤ, direction ((PlaneMap.mirror m sum).point c) ((PlaneMap.mirror m sum).point p) =
      m.straight - direction c p + n * 360 := by
  have hcoordinate : ∀ (k : MirrorAxis) (v w : α),
      (PlaneMap.mirror m sum).coordinate k v - (PlaneMap.mirror m sum).coordinate k w = m.sign k * (v - w) := by
    intro k v w
    simp only [PlaneMap.coordinate, PlaneMap.mirror]
    ring
  have hne : p.x - c.x ≠ 0 ∨ p.y - c.y ≠ 0 := by
    by_contra hsame
    simp only [not_or, not_not, sub_eq_zero] at hsame
    exact hp (Point.ext hsame.1 hsame.2)
  obtain ⟨n, hn⟩ := h.direction_mirrored m hne
  refine ⟨n, ?_⟩
  rw [← hcoordinate, ← hcoordinate] at hn
  exact hn

theorem sweepDegrees_mirrored {p c q : Point α} (hp : p ≠ c) (hq : q ≠ c) (w : Winding) :
    sweepDegrees ((PlaneMap.mirror m sum).point p) ((PlaneMap.mirror m sum).point c) ((PlaneMap.mirror m sum).point q)
      w.flip = sweepDegrees p c q w := by
  obtain ⟨n, hn⟩ := direction_mirrored h m sum hp
  obtain ⟨k, hk⟩ := direction_mirrored h m sum hq
  have hturned : ∀ (d e : α) (n k : ℤ),
      m.straight - d + n * 360 - (m.straight - e + k * 360) = e - d + (n - k : ℤ) * 360 := by
    intro d e n k
    rw [Int.cast_sub]
    ring
  rw [sweepDegrees_eq, sweepDegrees_eq, hn, hk]
  cases w <;> simp only [Winding.flip, reduceCtorEq, if_true, if_false, hturned, Scalar.modulo_add_turns]

/-- An arc between mirrored ends about the mirrored centre. -/
theorem reflects_ofOffsets {p q : Point α} {i j : α} (hp : p ≠ p + ⟨i, j⟩) (hq : q ≠ p + ⟨i, j⟩) (w : Winding) :
    (ofOffsets p q i j w).Reflects m sum (ofOffsets ((PlaneMap.mirror m sum).point p)
      ((PlaneMap.mirror m sum).point q) (m.sign .x * i) (m.sign .y * j) w.flip) := by
  have hcenter : (PlaneMap.mirror m sum).point p + ⟨m.sign .x * i, m.sign .y * j⟩ =
      (PlaneMap.mirror m sum).point (p + ⟨i, j⟩) := by
    ext
    · simp only [Point.add_x, PlaneMap.point, PlaneMap.coordinate, PlaneMap.mirror]
      ring
    · simp only [Point.add_y, PlaneMap.point, PlaneMap.coordinate, PlaneMap.mirror]
      ring
  have hradius : Scalar.hypot (m.sign .x * i) (m.sign .y * j) = Scalar.hypot i j := by
    cases m with
    | x =>
        change PlaneFunctions.hypot (-1 * i) (1 * j) = _
        rw [one_mul, neg_one_mul]
        exact (h.hypot_neg i j).1
    | y =>
        change PlaneFunctions.hypot (1 * i) (-1 * j) = _
        rw [one_mul, neg_one_mul]
        exact (h.hypot_neg i j).2
  have hsweep := sweepDegrees_mirrored h m sum hp hq w
  refine ⟨hcenter, ?_, ?_, ?_, ?_⟩
  · simp only [ofOffsets, hradius]
  · obtain ⟨n, hn⟩ := direction_mirrored h m sum hp
    refine ⟨n, ?_⟩
    rw [← hcenter] at hn
    exact hn
  · rw [← hcenter] at hsweep
    cases w with
    | clockwise => exact hsweep.trans (neg_neg _).symm
    | counterclockwise => exact congrArg (- ·) hsweep
  · have hpos := sweepDegrees_pos p (p + ⟨i, j⟩) q w
    cases w with
    | clockwise => exact neg_ne_zero.mpr hpos.ne'
    | counterclockwise => exact hpos.ne'

end Arc

end

end PartProgram
