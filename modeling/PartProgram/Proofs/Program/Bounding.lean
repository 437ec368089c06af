import PartProgram.Proofs.Plane.Extent
import PartProgram.Proofs.Program.Framing

/-! # The box of what is cut

The extent of a program holds every point that a cut with an X or Y word passes through, and each of its
bounds is a coordinate of such a point. A full circle that is written with its centre alone adds nothing.
-/

namespace PartProgram

variable {α : Type} [Scalar α]

/-! ### Steps -/

/-- The block is drawn, it cuts, and it has an X or Y word. -/
def Block.isBounded (b : Block α) : Bool := b.isDrawable && b.motion.isEngaged && b.hasXY

/-- The points by which a placed block grows the extent, with its start if that is the first of a figure. -/
def Block.bounding (first : Bool) (b : Block α) : List (Point α) :=
  if b.isBounded then
    (if first then [b.place.origin.xy] else []) ++ b.place.target.xy :: b.place.arc.elim [] Arc.boxPoints
  else []

theorem Block.bounding_subset {first first' : Bool} (h : first = true → first' = true) (b : Block α) :
    b.bounding first ⊆ b.bounding first' := by
  simp only [bounding]
  cases first <;> cases first' <;> cases b.isBounded <;> simp_all

namespace Tool

/-- What drawing a placed block does to the extent in the plane. -/
theorem exists_extent_draw (t : Tool α) (b : Block α) :
    ∃ first z, (t.draw b).extent = { (b.bounding first).foldl Extent.includeXY t.extent with z } := by
  cases hdrawable : b.isDrawable with
  | false =>
      refine ⟨false, t.extent.z, ?_⟩
      simp [draw, Block.bounding, Block.isBounded, hdrawable]
  | true =>
      refine ⟨(t.setPen b.motion.isEngaged).startPending, ((t.draw b).extent).z, ?_⟩
      rw [draw, if_pos hdrawable]
      simp only [addExtent, Block.bounding, Block.isBounded, hdrawable, Bool.true_and]
      cases hcut : b.motion.isEngaged && b.hasXY with
      | false => cases b.z <;> simp [Extent.includeZ]
      | true =>
          cases (t.setPen b.motion.isEngaged).startPending <;> cases b.place.arc <;> cases b.z <;>
            simp [Extent.includeZ, Arc.includeArc_eq]

theorem exists_extent_step (machine : Machine α) (t : Tool α) (b : Block α) :
    ∃ first z, (t.step machine b).1.extent =
      { ((t.step machine b).2.bounding first).foldl Extent.includeXY t.extent with z } := by
  rw [step_draws]
  exact t.exists_extent_draw _

end Tool

/-- The extent holds what the blocks are bounded by, and its bounds are set by nothing else. -/
structure Extent.Bounds (e : Extent α) (bs : List (Block α)) : Prop where
  holds : ∀ b ∈ bs, ∀ p ∈ b.bounding false, e.Holds p
  meets : e.Meets fun p => ∃ b ∈ bs, p ∈ b.bounding true

variable [Scalar.Ordered α]

theorem Extent.Bounds.step {t : Tool α} {before : List (Block α)} (h : t.extent.Bounds before) (machine : Machine α)
    (b : Block α) : (t.step machine b).1.extent.Bounds (before ++ [(t.step machine b).2]) := by
  obtain ⟨first, z, hextent⟩ := t.exists_extent_step machine b
  rw [hextent]
  refine ⟨?_, ?_⟩
  · intro b' hb' p hp
    rcases List.mem_append.mp hb' with hb' | hb'
    · exact (h.holds b' hb' p hp).foldl_includeXY _
    · obtain rfl := List.mem_singleton.mp hb'
      exact Extent.holds_foldl_includeXY _ (Block.bounding_subset (by simp) _ hp)
  · refine (h.meets.mono fun p ⟨b', hb', hp⟩ => ⟨b', by simp [hb'], hp⟩).foldl_includeXY fun p hp => ?_
    exact ⟨_, by simp, Block.bounding_subset (by simp) _ hp⟩

namespace Program

theorem bounds_place (p : Program α) (machine : Machine α) :
    (p.place machine).extent.Bounds (p.place machine).executed := by
  rw [extent_place_eq, executed_place_eq]
  refine pass_induction (I := fun before (t : Tool α) => t.extent.Bounds before) ?_ [] ?_ p.running
  · exact fun before t b h => h.step machine b
  · exact ⟨by simp, by simp [Extent.Meets, Range.Meets, Tool.atStart]⟩

/-- A program that has an extent in the plane cuts there. -/
theorem exists_isBounded_of_extent {p : Program α} {machine : Machine α}
    (h : (p.place machine).extent.isEmpty = false) : ∃ b ∈ (p.place machine).executed, b.isBounded = true := by
  simp only [Extent.isEmpty, Bool.or_eq_false_iff, Option.isNone_eq_false_iff] at h
  obtain ⟨r, hr⟩ := Option.isSome_iff_exists.mp h.1
  obtain ⟨⟨v, ⟨b, hb, hv⟩, -⟩, -⟩ := (bounds_place p machine).meets.1 r hr
  refine ⟨b, hb, ?_⟩
  by_contra hbounded
  simp [Block.bounding, hbounded] at hv

/-- The extent of a program holds the end of every drawn cut that has an X or Y word or goes somewhere else, and
every quadrant point that its arc passes through. Its bounds are coordinates of cuts with X or Y words. -/
theorem extent_holds_cuts (p : Program α) (machine : Machine α) :
    let q := p.place machine
    (∀ b ∈ q.executed, b.isDrawable = true → b.motion.isEngaged = true →
      (b.hasXY = true ∨ b.place.target.xy ≠ b.place.origin.xy) →
      q.extent.Holds b.place.target.xy ∧
      ∀ arc ∈ b.place.arc, ∀ degrees ∈ Extent.quadrants, arc.containsAngle degrees = true →
        q.extent.Holds (arc.pointAt degrees)) ∧
    q.extent.Meets fun v => ∃ b ∈ q.executed, v ∈ b.bounding true := by
  intro q
  have hextent : q.extent.Bounds q.executed := bounds_place p machine
  refine ⟨?_, hextent.meets⟩
  intro b hb hdrawable hengaged hmoves
  have hxy : b.hasXY = true := by
    rcases hmoves with hxy | hmoves
    · exact hxy
    · by_contra hidle
      refine hmoves ?_
      rw [executed_place_eq] at hb
      obtain ⟨t, b₀, -, rfl⟩ := exists_of_mem_pass hb
      rw [Tool.step_target, Tool.step_origin, ← Tool.targetFrom_step]
      exact Block.targetFrom_xy_of_not_hasXY (by simpa using hidle) machine t.position
  have hbounded : b.isBounded = true := by rw [Block.isBounded, hdrawable, hengaged, hxy]; rfl
  have hholds := hextent.holds b hb
  rw [Block.bounding, if_pos hbounded] at hholds
  refine ⟨hholds _ (by simp), ?_⟩
  intro arc harc degrees hdegrees hpasses
  refine hholds _ ?_
  rw [Option.mem_def.mp harc]
  have hreach : arc.reach degrees = some (arc.pointAt degrees) := if_pos hpasses
  simpa [Arc.boxPoints] using .inr (.inr (.inr ⟨degrees, hdegrees, hreach⟩))

/-- An arc in a body, whose furthest point lies between its ends. -/
theorem extent_holds_copied_arc :
    let _ := PlaneFunctions.axial
    let text := "G0 X0 Y0\nM98 P1\nM30\nO1\nG3 X10 I5 F100\nM99\n"
    let q := read text .default (.default : Machine ℚ)
    ∃ b ∈ q.executed, ∃ arc ∈ b.place.arc,
      (b.inlined = true ∧ b.isDrawable = true ∧ b.motion.isEngaged = true ∧ b.hasXY = true ∧
        270 ∈ (Extent.quadrants : List ℚ) ∧ arc.containsAngle 270 = true ∧ arc.pointAt 270 = ⟨5, -5⟩) ∧
      q.extent.Holds b.place.target.xy ∧ q.extent.Holds ⟨5, -5⟩ := by
  intro _ text q
  have hread : (asRead (Text.lines text) .default).place .default = q := rfl
  have hcuts := extent_holds_cuts (asRead (Text.lines text) .default) (.default : Machine ℚ)
  rw [hread] at hcuts
  have hb : q.executed.any (fun b => b.place.arc.any fun arc =>
      b.inlined && b.isDrawable && b.motion.isEngaged && b.hasXY && decide (270 ∈ (Extent.quadrants : List ℚ)) &&
        arc.containsAngle 270 && decide (arc.pointAt 270 = ⟨5, -5⟩)) = true := by decide +kernel
  obtain ⟨b, hb, hany⟩ := List.any_eq_true.mp hb
  obtain ⟨arc, harc, hall⟩ := (Option.any_eq_true _ _).mp hany
  simp only [Bool.and_eq_true, decide_eq_true_eq] at hall
  obtain ⟨⟨⟨⟨⟨⟨hinlined, hdrawable⟩, hengaged⟩, hxy⟩, hquadrant⟩, hpasses⟩, hpoint⟩ := hall
  obtain ⟨htarget, hpoints⟩ := hcuts.1 b hb hdrawable hengaged (.inl hxy)
  have hfurthest := hpoints arc harc 270 hquadrant hpasses
  rw [hpoint] at hfurthest
  exact ⟨b, hb, arc, harc, ⟨hinlined, hdrawable, hengaged, hxy, hquadrant, hpasses, hpoint⟩, htarget, hfurthest⟩

-- A full circle with its centre alone is drawn and lies outside of the extent.
example :
    let _ := PlaneFunctions.axial
    let p := read "G0 X0 Y0\nG2 I5 J0 F100\n" .default (.default : Machine ℚ)
    p.figures = 1 ∧ p.executed.map (fun b => (b.isDrawable, b.place.arc.isSome)) = [(true, false), (true, true)] ∧
      p.extent = {} := by
  decide +kernel

end Program

end PartProgram
