import PartProgram.Proofs.Plane.Circle
import PartProgram.Proofs.Plane.Extent

/-! # The box of an arc

Seen in any direction, an arc that does not pass through that direction reaches furthest at one of its ends. So the
ends and the quadrant points that it passes through are enough for a box that holds all of it.
-/

namespace PartProgram

open Real

/-- Within one turn the cosine is not greater than at both ends. -/
theorem cos_le_max_cos {x a b : ℝ} (ha : 0 ≤ a) (hax : a ≤ x) (hxb : x ≤ b) (hb : b ≤ 2 * π) :
    cos x ≤ max (cos a) (cos b) := by
  rcases le_total x π with hx | hx
  · exact le_max_of_le_left (cos_le_cos_of_nonneg_of_le_pi ha hx hax)
  · -- past half a turn the cosine grows, as it falls before it
    have hrest : cos (2 * π - x) ≤ cos (2 * π - b) :=
      cos_le_cos_of_nonneg_of_le_pi (by linarith) (by linarith) (by linarith)
    rw [cos_two_pi_sub, cos_two_pi_sub] at hrest
    exact le_max_of_le_right hrest

namespace Point

/-- How far the point lies in the direction. -/
noncomputable def toward (p : Point ℝ) (degrees : ℝ) : ℝ :=
  p.x * cos (Scalar.toRadians degrees) + p.y * sin (Scalar.toRadians degrees)

theorem toward_zero (p : Point ℝ) : p.toward 0 = p.x := by
  simp [toward, Scalar.toRadians_real]

theorem toward_ninety (p : Point ℝ) : p.toward 90 = p.y := by
  have hquarter : (90 : ℝ) * (π / 180) = π / 2 := by ring
  simp [toward, Scalar.toRadians_real, hquarter]

theorem toward_add_180 (p : Point ℝ) (d : ℝ) : p.toward (d + 180) = -p.toward d := by
  have hhalf : (d + 180) * (π / 180) = d * (π / 180) + π := by ring
  rw [toward, toward, Scalar.toRadians_real, Scalar.toRadians_real, hhalf, cos_add_pi, sin_add_pi]
  ring

end Point

namespace Arc

variable (a : Arc ℝ)

theorem toward_pointAt (d q : ℝ) :
    (a.pointAt d).toward q = a.center.toward q + a.radius * cos (Scalar.toRadians (d - q)) := by
  have hsub : Scalar.toRadians (d - q) = Scalar.toRadians d - Scalar.toRadians q := by
    rw [Scalar.toRadians_real, Scalar.toRadians_real, Scalar.toRadians_real]
    ring
  rw [Point.toward, Point.toward, x_pointAt, y_pointAt, hsub, cos_sub]
  ring

variable {a}

/-- The sweep of an arc that does not pass through a direction lies between two turns to it. -/
theorem exists_turn_of_not_containsAngle {q : ℝ} (h : a.containsAngle q = false) :
    ∃ m : ℤ, ∀ t, 0 ≤ t → t ≤ 1 →
      q + m * 360 ≤ a.startAngle + a.sweep * t ∧ a.startAngle + a.sweep * t ≤ q + (m + 1) * 360 := by
  have htolerance : (0 : ℝ) < angleTolerance := angleTolerance_pos
  rw [containsAngle_eq, decide_eq_false_iff_not, not_le] at h
  split at h
  · rename_i hsweep
    obtain ⟨n, hn⟩ := Scalar.exists_modulo_eq (q - a.startAngle)
    have hlt := Scalar.modulo_lt (q - a.startAngle)
    rw [abs_of_nonneg hsweep] at h
    refine ⟨-n - 1, fun t ht ht' => ?_⟩
    have hpart := mul_nonneg hsweep ht
    have hpart' := mul_le_of_le_one_right hsweep ht'
    push_cast
    constructor <;> linarith
  · rename_i hsweep
    have hneg : 0 ≤ -a.sweep := by linarith
    obtain ⟨n, hn⟩ := Scalar.exists_modulo_eq (a.startAngle - q)
    have hlt := Scalar.modulo_lt (a.startAngle - q)
    rw [abs_of_neg (not_le.mp hsweep)] at h
    refine ⟨n, fun t ht ht' => ?_⟩
    have hpart := mul_nonneg hneg ht
    have hpart' := mul_le_of_le_one_right hneg ht'
    constructor <;> linarith

/-- In a direction that the arc does not pass through, it reaches no further than one of its ends. -/
theorem cos_sweep_le_max {q : ℝ} (h : a.containsAngle q = false) {t : ℝ} (ht : 0 ≤ t) (ht' : t ≤ 1) :
    cos (Scalar.toRadians (a.startAngle + a.sweep * t - q)) ≤
      max (cos (Scalar.toRadians (a.startAngle - q))) (cos (Scalar.toRadians (a.endAngle - q))) := by
  obtain ⟨m, hm⟩ := exists_turn_of_not_containsAngle h
  have hpi := pi_pos
  -- the directions counted from the turn to `q` in front of the sweep
  set f : ℝ → ℝ := fun d => Scalar.toRadians (d - q) - m * (2 * π) with hf
  have hcos : ∀ d, cos (f d) = cos (Scalar.toRadians (d - q)) := fun d => cos_sub_int_mul_two_pi _ m
  have hmono : Monotone f := by
    intro d e hde
    simp only [hf, Scalar.toRadians_real]
    gcongr
  have hturn : f (q + m * 360) = 0 ∧ f (q + (m + 1) * 360) = 2 * π := by
    simp only [hf, Scalar.toRadians_real]
    constructor <;> ring
  have hwithin : ∀ t, 0 ≤ t → t ≤ 1 → 0 ≤ f (a.startAngle + a.sweep * t) ∧ f (a.startAngle + a.sweep * t) ≤ 2 * π := by
    intro t ht ht'
    obtain ⟨hlow, hhigh⟩ := hm t ht ht'
    rw [← hturn.1, ← hturn.2]
    exact ⟨hmono hlow, hmono hhigh⟩
  have hstart := hwithin 0 le_rfl zero_le_one
  have hend := hwithin 1 zero_le_one le_rfl
  rw [mul_zero, add_zero] at hstart
  rw [mul_one] at hend
  rw [← hcos, ← hcos, ← hcos, endAngle]
  rcases le_total 0 a.sweep with hsweep | hsweep
  · refine cos_le_max_cos hstart.1 (hmono ?_) (hmono ?_) hend.2
    · linarith [mul_nonneg hsweep ht]
    · linarith [mul_le_of_le_one_right hsweep ht']
  · rw [max_comm]
    refine cos_le_max_cos hend.1 (hmono ?_) (hmono ?_) hstart.2
    · linarith [mul_le_mul_of_nonpos_left ht' hsweep]
    · linarith [mul_nonpos_of_nonpos_of_nonneg hsweep ht]

/-- Seen in the direction of a quadrant, no point of an arc lies beyond all points of its box. -/
theorem exists_boxPoint_toward (hradius : 0 ≤ a.radius) {q : ℝ} (hq : q ∈ Extent.quadrants) {t : ℝ} (ht : 0 ≤ t)
    (ht' : t ≤ 1) : ∃ p ∈ a.boxPoints, (a.along t).toward q ≤ p.toward q := by
  have hreach : ∀ d, cos (Scalar.toRadians (a.startAngle + a.sweep * t - q)) ≤ cos (Scalar.toRadians (d - q)) →
      (a.along t).toward q ≤ (a.pointAt d).toward q := by
    intro d hd
    rw [along, toward_pointAt, toward_pointAt]
    gcongr
  cases hpasses : a.containsAngle q with
  | true =>
      have hpoint : a.reach q = some (a.pointAt q) := if_pos hpasses
      refine ⟨a.pointAt q, by simpa [boxPoints] using .inr (.inr ⟨q, hq, hpoint⟩), hreach q ?_⟩
      have hzero : Scalar.toRadians (0 : ℝ) = 0 := by rw [Scalar.toRadians_real, zero_mul]
      rw [sub_self, hzero, cos_zero]
      exact cos_le_one _
  | false =>
      rcases le_max_iff.mp (cos_sweep_le_max hpasses ht ht') with hstart | hend
      · exact ⟨a.pointAt a.startAngle, by simp [boxPoints], hreach _ hstart⟩
      · exact ⟨a.pointAt a.endAngle, by simp [boxPoints], hreach _ hend⟩

/-- On each axis every point of an arc lies between two points of its box. -/
theorem exists_boxPoint_around (hradius : 0 ≤ a.radius) {t : ℝ} (ht : 0 ≤ t) (ht' : t ≤ 1) (m : MirrorAxis) :
    (∃ p ∈ a.boxPoints, m.along p ≤ m.along (a.along t)) ∧ ∃ p ∈ a.boxPoints, m.along (a.along t) ≤ m.along p := by
  have hquadrants : ∀ p : Point ℝ, p.toward 180 = -p.x ∧ p.toward 270 = -p.y := by
    intro p
    have hleft := p.toward_add_180 0
    have hdown := p.toward_add_180 90
    rw [Point.toward_zero] at hleft
    rw [Point.toward_ninety] at hdown
    norm_num at hleft hdown
    exact ⟨hleft, hdown⟩
  have htoward : ∀ q ∈ ([0, 90, 180, 270] : List ℝ), ∃ p ∈ a.boxPoints, (a.along t).toward q ≤ p.toward q := by
    intro q hq
    exact exists_boxPoint_toward hradius (Extent.quadrants_eq (α := ℝ) ▸ hq) ht ht'
  cases m with
  | x =>
      obtain ⟨p, hp, hright⟩ := htoward 0 (by simp)
      obtain ⟨p', hp', hleft⟩ := htoward 180 (by simp)
      rw [Point.toward_zero, Point.toward_zero] at hright
      rw [(hquadrants _).1, (hquadrants _).1, neg_le_neg_iff] at hleft
      exact ⟨⟨p', hp', hleft⟩, ⟨p, hp, hright⟩⟩
  | y =>
      obtain ⟨p, hp, hup⟩ := htoward 90 (by simp)
      obtain ⟨p', hp', hdown⟩ := htoward 270 (by simp)
      rw [Point.toward_ninety, Point.toward_ninety] at hup
      rw [(hquadrants _).2, (hquadrants _).2, neg_le_neg_iff] at hdown
      exact ⟨⟨p', hp', hdown⟩, ⟨p, hp, hup⟩⟩

/-- The points of the box of an arc are points of the arc. -/
theorem exists_containsAngle_of_mem_boxPoints {p : Point ℝ} (hp : p ∈ a.boxPoints) :
    ∃ d, a.containsAngle d = true ∧ p = a.pointAt d := by
  simp only [boxPoints, List.mem_cons, List.mem_filterMap] at hp
  rcases hp with rfl | rfl | ⟨q, -, hq⟩
  · have hstart := a.containsAngle_sweep le_rfl zero_le_one
    rw [mul_zero, add_zero] at hstart
    exact ⟨_, hstart, rfl⟩
  · have hend := a.containsAngle_sweep zero_le_one le_rfl
    rw [mul_one] at hend
    exact ⟨_, hend, rfl⟩
  · rw [reach] at hq
    split at hq
    · rename_i hpasses
      exact ⟨q, hpasses, (Option.some_inj.mp hq).symm⟩
    · simp at hq

end Arc

namespace Extent

open Arc

/-- An extent to which an arc is added holds the whole arc and all that it held before. It is no larger than that:
each of its bounds is an old one or a coordinate of a point that the arc passes through. -/
theorem includeArc_encloses (start finish : Point ℝ) (i j : ℝ) (winding : Winding) (e : Extent ℝ) :
    let a := ofOffsets start finish i j winding
    (∀ t, 0 ≤ t → t ≤ 1 → (e.includeArc a).Holds (a.pointAt (a.startAngle + t * a.sweep))) ∧
      e.GrowsBy (e.includeArc a) fun p => ∃ d, a.containsAngle d = true ∧ p = a.pointAt d := by
  intro a
  have hradius : 0 ≤ a.radius := (radius_ofOffsets_pos start finish i j winding).le
  rw [includeArc_eq]
  refine ⟨fun t ht ht' => ?_, (e.growsBy_refl _).foldl_includeXY fun p hp => exists_containsAngle_of_mem_boxPoints hp⟩
  have hholds : ∀ p ∈ a.boxPoints, (a.boxPoints.foldl includeXY e).Holds p := fun p hp =>
    holds_foldl_includeXY e hp
  obtain ⟨⟨p, hp, hleft⟩, ⟨p', hp', hright⟩⟩ := exists_boxPoint_around hradius ht ht' .x
  obtain ⟨⟨r, hr, hbelow⟩, ⟨r', hr', habove⟩⟩ := exists_boxPoint_around hradius ht ht' .y
  rw [mul_comm]
  exact ⟨(hholds p hp).1.between (hholds p' hp').1 hleft hright,
    (hholds r hr).2.between (hholds r' hr').2 hbelow habove⟩

/-- Half a circle is run between two ends on one vertical, and its middle lies left of both and of the extent. -/
theorem includeArc_bulge :
    let a := ofOffsets (⟨10, 0⟩ : Point ℝ) ⟨10, 10⟩ 0 5 .clockwise
    let e : Extent ℝ := { x := some ⟨7, 8⟩, y := some ⟨20, 30⟩ }
    ((0 : ℝ) ≤ 1 / 2 ∧ (1 / 2 : ℝ) ≤ 1) ∧ a.pointAt (a.startAngle + 1 / 2 * a.sweep) = ⟨5, 5⟩ ∧
      (e.includeArc a).Holds ⟨5, 5⟩ ∧ (∃ r ∈ (e.includeArc a).x, r.lo ≤ 7 ∧ 8 ≤ r.hi) := by
  intro a e
  have hhalf : (0 : ℝ) ≤ 1 / 2 ∧ (1 / 2 : ℝ) ≤ 1 := by norm_num
  obtain ⟨hholds, hgrows⟩ := includeArc_encloses ⟨10, 0⟩ ⟨10, 10⟩ 0 5 .clockwise e
  have hmiddle : a.pointAt (a.startAngle + 1 / 2 * a.sweep) = ⟨5, 5⟩ := by
    have hleft : (-90 + 1 / 2 * -180) * (π / 180) = -π := by ring
    have ha : a = ⟨⟨10, 5⟩, 5, -90, -180⟩ := ofOffsets_half_circle
    rw [ha]
    ext
    · rw [x_pointAt, Scalar.toRadians_real, hleft, cos_neg, cos_pi]
      norm_num
    · rw [y_pointAt, Scalar.toRadians_real, hleft, sin_neg, sin_pi]
      norm_num
  refine ⟨hhalf, hmiddle, ?_, hgrows.x.holds ⟨7, 8⟩ rfl⟩
  rw [← hmiddle]
  exact hholds (1 / 2) hhalf.1 hhalf.2

end Extent

end PartProgram
