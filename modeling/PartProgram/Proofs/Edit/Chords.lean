import PartProgram.Proofs.Plane.Circle
import PartProgram.Proofs.Edit.Pieces

/-! # Chords that keep the step

Over the real numbers a move is cut into enough equal parts for each of them to keep the step, unless the limit on
pieces is reached. A piece of an arc turns by no more than the angle whose chord is the step, and up to half a turn
greater angles have longer chords.
-/

namespace PartProgram

open Real

/-! ### Arcs -/

namespace Arc

variable (a : Arc ℝ) {maxStep : ℝ}

/-- The greatest angle, up to half a turn, whose chord keeps the step. -/
noncomputable def chordAngle (maxStep : ℝ) : ℝ :=
  if 2 * a.radius ≤ maxStep then π else 2 * arcsin (maxStep / (2 * a.radius))

/-- The points lie on the arc after its start, in the order in which it passes through them. -/
def PassesThrough (ps : List (Point ℝ)) : Prop :=
  ∃ ts : List ℝ, ts.Pairwise (· < ·) ∧ (∀ t ∈ ts, 0 < t ∧ t ≤ 1) ∧
    ps = ts.map a.along

variable {a}

theorem chordAngle_pos (hradius : 0 < a.radius) (hstep : 0 < maxStep) : 0 < a.chordAngle maxStep := by
  rw [chordAngle]
  split
  · exact pi_pos
  · have hsine : 0 < arcsin (maxStep / (2 * a.radius)) := arcsin_pos.mpr (by positivity)
    positivity

theorem chordAngle_le_pi : a.chordAngle maxStep ≤ π := by
  rw [chordAngle]
  split
  · exact le_rfl
  · linarith [arcsin_le_pi_div_two (maxStep / (2 * a.radius))]

/-- An angle up to the greatest one has a chord that keeps the step. -/
theorem chord_le (hradius : 0 < a.radius) (hstep : 0 < maxStep) {angle : ℝ} (hnonneg : 0 ≤ angle)
    (hle : angle ≤ a.chordAngle maxStep) : 2 * (a.radius * sin (angle / 2)) ≤ maxStep := by
  rw [chordAngle] at hle
  split at hle
  · rename_i hdiameter
    have hchord : a.radius * sin (angle / 2) ≤ a.radius := mul_le_of_le_one_right hradius.le (sin_le_one _)
    linarith
  · rename_i hdiameter
    have hratio : maxStep / (2 * a.radius) ≤ 1 := (div_le_one (by positivity)).mpr (not_le.mp hdiameter).le
    have hratio' : -1 ≤ maxStep / (2 * a.radius) := by linarith [show 0 ≤ maxStep / (2 * a.radius) by positivity]
    have hsine : sin (angle / 2) ≤ maxStep / (2 * a.radius) := by
      rw [← sin_arcsin hratio' hratio]
      refine sin_le_sin_of_le_of_le_pi_div_two ?_ (arcsin_le_pi_div_two _) ?_
      · linarith [pi_pos]
      · linarith
    calc 2 * (a.radius * sin (angle / 2)) ≤ 2 * (a.radius * (maxStep / (2 * a.radius))) := by gcongr
      _ = maxStep := by field_simp

/-- The chord between two parts of the sweep that are close enough keeps the step. -/
theorem distance_along_le (hradius : 0 < a.radius) (hstep : 0 < maxStep) {s t : ℝ}
    (hclose : Scalar.toRadians (|a.sweep| * |s - t|) ≤ a.chordAngle maxStep) :
    (a.along s).distance (a.along t) ≤ maxStep := by
  set angle := Scalar.toRadians (|a.sweep| * |s - t|) with hangle
  have hpi := pi_pos
  have hnonneg : 0 ≤ angle := by
    rw [hangle, Scalar.toRadians_real]
    positivity
  have hhalf : |Scalar.toRadians (a.startAngle + a.sweep * s - (a.startAngle + a.sweep * t)) / 2| = angle / 2 := by
    rw [add_sub_add_left_eq_sub, ← mul_sub, hangle, Scalar.toRadians_real, Scalar.toRadians_real, abs_div, abs_mul,
      abs_mul, abs_of_pos (by positivity : (0 : ℝ) < π / 180), abs_of_pos (zero_lt_two' ℝ)]
  have hsine : |sin (Scalar.toRadians (a.startAngle + a.sweep * s - (a.startAngle + a.sweep * t)) / 2)| =
      sin (angle / 2) := by
    have hsmall : angle / 2 ≤ π := by linarith [hclose.trans (chordAngle_le_pi (a := a))]
    rw [abs_sin_eq_sin_abs_of_abs_le_pi (hhalf ▸ hsmall), hhalf]
  rw [along, along, distance_pointAt, abs_mul, abs_of_pos hradius, hsine]
  exact chord_le hradius hstep hnonneg hclose

theorem pieceCount_eq (hstep : 0 < maxStep) :
    let n : ℤ := ⌈Scalar.toRadians |a.sweep| / a.chordAngle maxStep⌉
    a.pieceCount maxStep = if n < 1 then 1 else if (maxPieces : ℤ) < n then maxPieces else n.toNat := by
  intro n
  have hzero : (Scalar.ofNat 0 : ℝ) = 0 := Nat.cast_zero
  have hone : (Scalar.ofNat 1 : ℝ) = (1 : ℤ) := by
    rw [Int.cast_one]
    exact Nat.cast_one
  have hlimit : (Scalar.ofNat maxPieces : ℝ) = ((maxPieces : ℤ) : ℝ) := (Int.cast_natCast _).symm
  have htwo : (Scalar.ofNat 2 : ℝ) = 2 := Nat.cast_ofNat
  have hangle : (if Scalar.ofNat 2 * a.radius ≤ maxStep then Scalar.pi
      else Scalar.ofNat 2 * Scalar.asin (maxStep / (Scalar.ofNat 2 * a.radius)) : ℝ) = a.chordAngle maxStep := by
    rw [htwo]
    rfl
  have hcount : ∀ m : ℤ, Scalar.toNat (m : ℝ) = m.toNat := by
    intro m
    change ⌊(m : ℝ)⌋.toNat = m.toNat
    rw [Int.floor_intCast]
  have hceil : Scalar.ceil (Scalar.toRadians (Scalar.abs a.sweep) / a.chordAngle maxStep) = (n : ℝ) := by
    rw [Scalar.abs_eq]
    rfl
  have hfinite : Scalar.isFinite (n : ℝ) = true := rfl
  simp only [pieceCount, OfNat.ofNat, hangle, hceil, hcount, hfinite, hone, hlimit]
  rw [if_pos (hzero ▸ hstep)]
  simp only [Bool.not_true, Bool.false_or, decide_eq_true_eq, Int.cast_lt]

/-- Below the limit, no piece turns by more than the greatest angle. -/
theorem toRadians_sweep_le (hradius : 0 < a.radius) (hstep : 0 < maxStep) (hcount : a.pieceCount maxStep < maxPieces) :
    Scalar.toRadians |a.sweep| ≤ a.pieceCount maxStep * a.chordAngle maxStep := by
  rw [← div_le_iff₀ (chordAngle_pos hradius hstep)]
  have hceil := Int.le_ceil (Scalar.toRadians |a.sweep| / a.chordAngle maxStep)
  rw [pieceCount_eq hstep] at hcount ⊢
  set n : ℤ := ⌈Scalar.toRadians |a.sweep| / a.chordAngle maxStep⌉
  refine hceil.trans ?_
  split_ifs at hcount ⊢ with hone hlimit
  · exact_mod_cast hone.le
  · exact absurd hcount (lt_irrefl _)
  · exact_mod_cast Int.self_le_toNat n

end Arc

/-! ### Straight lines -/

/-- The point after the part `t` of the way from `p` to `q`. -/
def Point.between (p q : Point ℝ) (t : ℝ) : Point ℝ := ⟨p.x + (q.x - p.x) * t, p.y + (q.y - p.y) * t⟩

theorem Point.distance_between (p q : Point ℝ) (s t : ℝ) :
    (p.between q s).distance (p.between q t) = |s - t| * p.distance q := by
  rw [Point.distance_real, Point.distance_real, ← sqrt_sq_eq_abs, ← sqrt_mul (sq_nonneg _)]
  congr 1
  simp only [between]
  ring

namespace Block

variable {b : Block ℝ} {maxStep : ℝ} {places : ℕ}

/-- Below the limit, a straight move has enough parts for each of them to keep the step. -/
theorem planarLength_le_mul (hstep : 0 < maxStep) (hcount : (b.lineCut maxStep places).count < Arc.maxPieces) :
    b.planarLength ≤ (b.lineCut maxStep places).count * maxStep := by
  rw [count_lineCut] at hcount ⊢
  rw [← div_le_iff₀ hstep]
  have hparts : ⌈b.planarLength / maxStep⌉ ≤
      ((max 1 (min Arc.maxPieces ⌈b.planarLength / maxStep⌉.toNat) : ℕ) : ℤ) := by omega
  exact (Int.le_ceil _).trans (by exact_mod_cast hparts)

/-! ### Where the pieces end -/

/-- The pieces of an absolute cut along an arc end on the arc, each after an equal part of the sweep. -/
theorem xy_reached_arcCut {arc : Arc ℝ} (habsolute : b.absolute = true) (hstart : arc.along 0 = b.place.origin.xy)
    (hend : b.place.target.xy = arc.pointAt arc.endAngle) (k : ℕ) :
    ((b.arcCut arc maxStep places).reached k).xy = arc.along (k / (b.arcCut arc maxStep places).count) := by
  by_cases hk : k = 0
  · rw [hk, Cut.reached_zero, Nat.cast_zero, zero_div, hstart]
    rfl
  · rw [Cut.reached_of_absolute habsolute hk]
    by_cases hlast : k = arc.pieceCount maxStep
    · have hpoint : (b.arcCut arc maxStep places).points k = b.place.target := if_pos hlast
      have hcount : (k : ℝ) / (b.arcCut arc maxStep places).count = 1 := by
        change (k : ℝ) / (arc.pieceCount maxStep : ℕ) = 1
        rw [← hlast, div_self (Nat.cast_ne_zero.mpr hk)]
      rw [hpoint, hend, hcount, Arc.along, mul_one]
      rfl
    · exact congrArg Position.xy (if_neg hlast)

/-- The pieces of an absolute cut along a line end on the line, each after an equal part of the way. -/
theorem xy_reached_lineCut (habsolute : b.absolute = true) (k : ℕ) :
    ((b.lineCut maxStep places).reached k).xy =
      b.place.origin.xy.between b.place.target.xy (k / (b.lineCut maxStep places).count) := by
  by_cases hk : k = 0
  · rw [hk, Cut.reached_zero, Nat.cast_zero, zero_div, Point.between, mul_zero, mul_zero, add_zero, add_zero]
    rfl
  · rw [Cut.reached_of_absolute habsolute hk]
    by_cases hlast : k = (b.lineCut maxStep places).count
    · have hpoint : (b.lineCut maxStep places).points k = b.place.target := if_pos hlast
      rw [hpoint, ← hlast, div_self (Nat.cast_ne_zero.mpr hk), Point.between, mul_one, mul_one, add_sub_cancel,
        add_sub_cancel]
    · exact congrArg Position.xy (if_neg hlast)

/-- Parts that follow each other are one part of `n` away from each other. -/
theorem abs_div_sub_div (k n : ℕ) : |(k : ℝ) / n - (k + 1 : ℕ) / n| = 1 / n := by
  rw [← sub_div, Nat.cast_succ, sub_add_cancel_left, abs_div, abs_neg, abs_one, Nat.abs_cast]

theorem parts_of_sweep (n : ℕ) :
    ((List.range n).map fun k => ((k + 1 : ℕ) : ℝ) / n).Pairwise (· < ·) ∧
      ∀ t ∈ (List.range n).map fun k => ((k + 1 : ℕ) : ℝ) / n, 0 < t ∧ t ≤ 1 := by
  constructor
  · rw [List.pairwise_map]
    refine List.pairwise_lt_range.imp_of_mem fun {k l} hk _ hlt => ?_
    have hn : (0 : ℝ) < n := Nat.cast_pos.mpr (Nat.zero_lt_of_lt (List.mem_range.mp hk))
    gcongr
  · intro t ht
    obtain ⟨k, hk, rfl⟩ := List.mem_map.mp ht
    rw [List.mem_range] at hk
    have hn : (0 : ℝ) < n := Nat.cast_pos.mpr (Nat.zero_lt_of_lt hk)
    refine ⟨by positivity, (div_le_one hn).mpr ?_⟩
    exact_mod_cast hk

/-! ### Pieces that keep the step -/

/-- The block runs along an arc that was placed with an offset to its centre, and ends where the arc does. -/
structure RunsAlong (b : Block ℝ) (arc : Arc ℝ) : Prop where
  recorded : b.place.arc = some arc
  placed : ∃ (finish : Point ℝ) (i j : ℝ) (winding : Winding), (i ≠ 0 ∨ j ≠ 0) ∧
    arc = .ofOffsets b.place.origin.xy finish i j winding
  ends : b.place.target.xy = arc.pointAt arc.endAngle

/-- Below the limit an arc gives way to chords that keep the step, with their ends along the arc. -/
theorem RunsAlong.chords {arc : Arc ℝ} (h : b.RunsAlong arc) (habsolute : b.absolute = true) (hstep : 0 < maxStep)
    (hlimit : (b.flattenArc maxStep places).length < Arc.maxPieces) :
    b.JoinedBy (b.flattenArc maxStep places) ∧
      (∀ p ∈ b.flattenArc maxStep places,
        p.planarLength ≤ maxStep ∧ arc.center.distance p.place.target.xy = arc.radius) ∧
      arc.PassesThrough ((b.flattenArc maxStep places).map (·.place.target.xy)) := by
  obtain ⟨finish, i, j, winding, hij, hplaced⟩ := h.placed
  have hstart : arc.along 0 = b.place.origin.xy := hplaced ▸ Arc.along_zero_ofOffsets _ finish hij winding
  have hradius : 0 < arc.radius := hplaced ▸ Arc.radius_ofOffsets_pos _ finish i j winding
  have hflat : b.flattenArc maxStep places = (b.arcCut arc maxStep places).pieces := by rw [flattenArc, h.recorded]
  set c := b.arcCut arc maxStep places with hc
  have hreached : ∀ k, (c.reached k).xy = arc.along (k / c.count) := xy_reached_arcCut habsolute hstart h.ends
  rw [hflat, Cut.length_pieces] at hlimit
  have hcount : c.count ≠ 0 := pieceCount_ne_zero (fun _ _ h => toNat_ne_zero h) arc maxStep
  have hn : (0 : ℝ) < c.count := Nat.cast_pos.mpr (Nat.pos_of_ne_zero hcount)
  rw [hflat]
  refine ⟨Cut.joinedBy_pieces hcount (if_pos rfl), ?_, (List.range c.count).map fun k => ((k + 1 : ℕ) : ℝ) / c.count,
    (parts_of_sweep c.count).1, (parts_of_sweep c.count).2, ?_⟩
  · intro p hp
    obtain ⟨k, -, rfl⟩ := Cut.exists_of_mem_pieces hp
    constructor
    · change (c.reached k).xy.distance (c.reached (k + 1)).xy ≤ maxStep
      rw [hreached, hreached]
      refine Arc.distance_along_le hradius hstep ?_
      have hturn := Arc.toRadians_sweep_le hradius hstep hlimit
      rw [abs_div_sub_div, Scalar.toRadians_real, mul_one_div, div_mul_eq_mul_div, div_le_iff₀' hn,
        ← Scalar.toRadians_real]
      exact hturn
    · change arc.center.distance (c.reached (k + 1)).xy = arc.radius
      rw [hreached]
      exact arc.distance_center_pointAt hradius.le _
  · rw [Cut.pieces, List.map_map, List.map_map]
    exact List.map_congr_left fun k _ => hreached (k + 1)

/-- Below the limit a long straight move gives way to parts that keep the step; a short one keeps it itself. -/
theorem parts_splitLine (habsolute : b.absolute = true) (hstep : 0 < maxStep) (hlinear : b.motion = .linear)
    (hlimit : (b.splitLine maxStep places).length < Arc.maxPieces) :
    b.JoinedBy (b.splitLine maxStep places) ∧ ∀ p ∈ b.splitLine maxStep places, p.planarLength ≤ maxStep := by
  by_cases hlong : b.isLong maxStep = true
  · set c := b.lineCut maxStep places with hc
    have hsplit : b.splitLine maxStep places = c.pieces := if_pos hlong
    have hreached : ∀ k, (c.reached k).xy = b.place.origin.xy.between b.place.target.xy (k / c.count) :=
      xy_reached_lineCut habsolute
    have hcount : c.count ≠ 0 := (Nat.lt_of_lt_of_le Nat.one_pos (Nat.le_max_left 1 _)).ne'
    have hn : (0 : ℝ) < c.count := Nat.cast_pos.mpr (Nat.pos_of_ne_zero hcount)
    rw [hsplit, Cut.length_pieces] at hlimit
    rw [hsplit]
    refine ⟨Cut.joinedBy_pieces hcount (if_pos rfl), fun p hp => ?_⟩
    obtain ⟨k, -, rfl⟩ := Cut.exists_of_mem_pieces hp
    change (c.reached k).xy.distance (c.reached (k + 1)).xy ≤ maxStep
    rw [hreached, hreached, Point.distance_between, abs_div_sub_div, div_mul_eq_mul_div, one_mul, div_le_iff₀' hn]
    exact planarLength_le_mul hstep hlimit
  · have hsplit : b.splitLine maxStep places = [b] := if_neg hlong
    have hzero : (Scalar.ofNat 0 : ℝ) = 0 := Nat.cast_zero
    have hpositive : (Scalar.ofNat 0 : ℝ) < maxStep := hzero ▸ hstep
    have hshort : b.planarLength ≤ maxStep := by
      by_contra hgreat
      refine hlong ?_
      rw [isLong, hlinear, beq_self_eq_true, Bool.true_and, Bool.and_eq_true, Bool.not_eq_true']
      exact ⟨decide_eq_true hpositive, decide_eq_false hgreat⟩
    rw [hsplit]
    exact ⟨⟨rfl, .singleton _, rfl⟩, List.forall_mem_singleton.mpr hshort⟩

/-- Unless there are too many pieces, those of an absolute move keep the step, and those of an arc end along it. -/
theorem pieces_keep_step (b : Block ℝ) (habsolute : b.absolute = true) (maxStep : ℝ) (hstep : 0 < maxStep)
    (places : ℕ) :
    (∀ arc, b.RunsAlong arc → (b.flattenArc maxStep places).length < Arc.maxPieces →
      b.JoinedBy (b.flattenArc maxStep places) ∧
        (∀ p ∈ b.flattenArc maxStep places,
          p.planarLength ≤ maxStep ∧ arc.center.distance p.place.target.xy = arc.radius) ∧
        arc.PassesThrough ((b.flattenArc maxStep places).map (·.place.target.xy))) ∧
    (b.motion = .linear → (b.splitLine maxStep places).length < Arc.maxPieces →
      b.JoinedBy (b.splitLine maxStep places) ∧ ∀ p ∈ b.splitLine maxStep places, p.planarLength ≤ maxStep) :=
  ⟨fun _ harc => harc.chords habsolute hstep, parts_splitLine habsolute hstep⟩

/-- A half circle in chords of its radius, and a line in three parts. -/
theorem pieces_keep_step_half_circle :
    let arc : Arc ℝ := .ofOffsets ⟨10, 0⟩ ⟨10, 10⟩ 0 5 .clockwise
    let curve : Block ℝ := { (Block.inert 0 "G2 X10 Y10 J5" : Block ℝ) with
      motion := .arc .clockwise, j := some 5, place := ⟨⟨10, 0, 0⟩, ⟨10, 10, 0⟩, some arc, none⟩ }
    let line : Block ℝ := { (Block.inert 1 "G1 X0" : Block ℝ) with
      motion := .linear, place := ⟨⟨10, 10, 0⟩, ⟨0, 10, 0⟩, none, none⟩ }
    (curve.absolute = true ∧ curve.RunsAlong arc ∧ (curve.flattenArc 5 3).length = 3) ∧
    (line.absolute = true ∧ line.motion = .linear ∧ (line.splitLine 4 3).length = 3) ∧
    (curve.JoinedBy (curve.flattenArc 5 3) ∧
      (∀ p ∈ curve.flattenArc 5 3, p.planarLength ≤ 5 ∧ arc.center.distance p.place.target.xy = arc.radius) ∧
      arc.PassesThrough ((curve.flattenArc 5 3).map (·.place.target.xy))) ∧
    line.JoinedBy (line.splitLine 4 3) ∧ ∀ p ∈ line.splitLine 4 3, p.planarLength ≤ 4 := by
  intro arc curve line
  have hpi := pi_pos
  have harc : arc = ⟨⟨10, 5⟩, 5, -90, -180⟩ := Arc.ofOffsets_half_circle
  have hend : (⟨10, 10⟩ : Point ℝ) = arc.pointAt arc.endAngle := by
    have hangle : Scalar.toRadians ((⟨⟨10, 5⟩, 5, -90, -180⟩ : Arc ℝ).endAngle) = π / 2 - 2 * π := by
      rw [Scalar.toRadians_real, Arc.endAngle]
      ring
    rw [harc]
    ext
    · rw [Arc.x_pointAt, hangle, cos_sub_two_pi, cos_pi_div_two, mul_zero, add_zero]
    · rw [Arc.y_pointAt, hangle, sin_sub_two_pi, sin_pi_div_two, mul_one]
      norm_num
  have hcurve : curve.RunsAlong arc := ⟨rfl, ⟨⟨10, 10⟩, 0, 5, .clockwise, .inr (by norm_num), rfl⟩, hend⟩
  have hthree : (curve.flattenArc 5 3).length = 3 := by
    have hsixth : arcsin (1 / 2) = π / 6 := by
      rw [← sin_pi_div_six, arcsin_sin] <;> linarith
    have hangle : arc.chordAngle 5 = π / 3 := by
      rw [harc, Arc.chordAngle, if_neg (by norm_num), show (5 : ℝ) / (2 * 5) = 1 / 2 by norm_num, hsixth]
      ring
    have hceil : ⌈Scalar.toRadians |arc.sweep| / arc.chordAngle 5⌉ = 3 := by
      have hsweep : Scalar.toRadians |arc.sweep| / arc.chordAngle 5 = (3 : ℤ) := by
        rw [hangle, harc, Scalar.toRadians_real, abs_neg, abs_of_pos (by norm_num : (0 : ℝ) < 180)]
        field_simp
        norm_num
      rw [hsweep, Int.ceil_intCast]
    change (curve.arcCut arc 5 3).pieces.length = 3
    rw [Cut.length_pieces]
    change arc.pieceCount 5 = 3
    rw [Arc.pieceCount_eq (by norm_num), hceil]
    rfl
  have hlength : line.planarLength = 10 := by
    change √(((10 : ℝ) - 0) ^ 2 + (10 - 10) ^ 2) = 10
    rw [sub_self, sub_zero, zero_pow two_ne_zero, add_zero]
    exact sqrt_sq (by norm_num)
  have hparts : (line.splitLine 4 3).length = 3 := by
    have hzero : (Scalar.ofNat 0 : ℝ) = 0 := Nat.cast_zero
    have hpositive : (Scalar.ofNat 0 : ℝ) < 4 := by
      rw [hzero]
      norm_num
    have hlong : line.isLong 4 = true := by
      rw [isLong, hlength, Bool.and_eq_true, Bool.not_eq_true']
      exact ⟨decide_eq_true hpositive, decide_eq_false (by norm_num)⟩
    have hceil : ⌈(10 : ℝ) / 4⌉ = 3 := by
      rw [Int.ceil_eq_iff]
      norm_num
    rw [splitLine, if_pos hlong, Cut.length_pieces, count_lineCut, hlength, hceil]
    rfl
  exact ⟨⟨rfl, hcurve, hthree⟩, ⟨rfl, rfl, hparts⟩,
    (pieces_keep_step curve rfl 5 (by norm_num) 3).1 arc hcurve (hthree.trans_lt (by decide)),
    (pieces_keep_step line rfl 4 (by norm_num) 3).2 rfl (hparts.trans_lt (by decide))⟩

end Block

end PartProgram
