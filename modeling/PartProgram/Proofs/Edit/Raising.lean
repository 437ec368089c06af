import PartProgram.Proofs.Edit.Flattening

/-! # Heights that are reached

A program that follows a surface is written from heights that are tracked beside the run. Placing what has
been written shows that they are the heights of the tool: every corrected line ends on the surface, and no
line has moved in the plane.
-/

namespace PartProgram

variable {α : Type} [Field α] [LinearOrder α] [FloorRing α] [PlaneFunctions α]

/-- The line is raised to the surface: edits may change it, it moves, and it cuts or the ground is not level. -/
def Block.isRaised (surface : Surface α) (b : Block α) : Bool :=
  b.isEditable && (b.hasXY || b.z.isSome) &&
    (b.motion.isEngaged || decide (surface.heightAt b.place.target.x b.place.target.y ≠ 0))

/-- The height of the tool on the surface, a multiple of the last written place. -/
def Block.raisedHeight (surface : Surface α) (places : ℕ) (b : Block α) : α :=
  Scalar.round ((b.place.target.z + surface.heightAt b.place.target.x b.place.target.y) * 10 ^ places) / 10 ^ places

/-- The second line ends over the point where the first one ends and, if that is raised, at the height of the
surface. -/
structure Block.RaisesTo (surface : Surface α) (places : ℕ) (b b' : Block α) : Prop where
  xy : b'.place.target.xy = b.place.target.xy
  z : b.isRaised surface = true → b'.place.target.z = b.raisedHeight surface places

section

variable (surface : Surface α) (places : ℕ) (b : Block α) (z : α)

theorem Block.correction_eq : b.correction surface =
    if b.isRaised surface then some (surface.heightAt b.place.target.x b.place.target.y) else none := by
  have hlevel : ∀ h : α, (h != Scalar.ofNat 0) = decide (h ≠ 0) := by
    intro h
    rw [show (Scalar.ofNat 0 : α) = 0 from Nat.cast_zero, decide_not]
    rfl
  rw [isRaised, ← hlevel]
  change (if (b.isEditable && (b.hasXY || b.z.isSome)) = true then
    (if (b.motion.isEngaged || _ != Scalar.ofNat 0) = true then some _ else none) else none) = _
  cases b.isEditable && (b.hasXY || b.z.isSome) <;> rfl

/-- A line that is not raised is kept, and the height goes on with its Z. -/
theorem followStep_of_not_isRaised (h : b.isRaised surface = false) :
    followStep surface places z b = (b.heightAfter z, b) := by
  rw [followStep, b.correction_eq, h]
  rfl

/-- A line that is raised gets the word that leads to the surface from the height before it. -/
theorem followStep_of_isRaised (h : b.isRaised surface = true) :
    followStep surface places z b = (b.raisedHeight surface places,
      b.withAxis .z (some (if b.absolute then b.raisedHeight surface places
        else b.raisedHeight surface places - z))) := by
  simp only [followStep, b.correction_eq, h, if_true, scale_eq, Block.raisedHeight]

end

/-! ### One line -/

section

variable {machine : Machine α} {b : Block α} {p p' : Position α} {z : α}

/-- The line as it is written takes the tool over the point where the line itself ends. -/
theorem targetFrom_followStep_xy (surface : Surface α) (places : ℕ)
    (hplaced : b.place.target = b.targetFrom machine p) (hxy : p'.xy = p.xy) (z : α) :
    ((followStep surface places z b).2.targetFrom machine p').xy = b.place.target.xy := by
  have hraised := Block.raised_followStep (q := b) rfl surface places z
  have hx : p'.x = p.x := congrArg Point.x hxy
  have hy : p'.y = p.y := congrArg Point.y hxy
  have hwordX : (followStep surface places z b).2.axes.get .x = b.axes.get .x := hraised.axes .x (by decide)
  have hwordY : (followStep surface places z b).2.axes.get .y = b.axes.get .y := hraised.axes .y (by decide)
  rw [hplaced]
  simp only [Block.targetFrom, Position.xy, Block.axisTarget, hwordX, hwordY, hx, hy, hraised.edit.absolute,
    hraised.edit.machineFrame]

/-- From the tracked height, the line as it is written takes the tool to the height that is tracked next. -/
theorem targetFrom_followStep_z (surface : Surface α) (places : ℕ)
    (hplaced : b.place.target = b.targetFrom machine p) (hz : p'.z = z) :
    ((followStep surface places z b).2.targetFrom machine p').z = (followStep surface places z b).1 := by
  cases hraised : b.isRaised surface with
  | false =>
      rw [followStep_of_not_isRaised surface places b z hraised]
      have htarget : b.place.target.z = b.axisTarget .z p.z machine.workOffset.z := congrArg Position.z hplaced
      change b.axisTarget .z p'.z machine.workOffset.z = b.heightAfter z
      simp only [Block.heightAfter, htarget, Block.axisTarget, Block.z, hz]
      cases b.axes.get .z <;> cases b.absolute <;> rfl
  | true =>
      rw [followStep_of_isRaised surface places b z hraised]
      have hframe : b.machineFrame = false := by
        simp only [Block.isRaised, Block.isEditable, Bool.and_eq_true, Bool.not_eq_true', Bool.or_eq_false_iff] at hraised
        exact hraised.1.1.1.1
      simp only [Block.targetFrom, Block.axisTarget, Block.withAxis, AxisWords.get_set_self, hframe, hz]
      cases b.absolute with
      | true => rfl
      | false => exact add_sub_cancel z _

end

/-! ### The whole program -/

/-- A run through the lines as they are written follows the run through the lines before. The tool is at the
height that has been tracked. -/
theorem pass_followStep (surface : Surface α) (places : ℕ) (machine : Machine α) {t t' : Tool α} {z : α}
    (hxy : t'.position.xy = t.position.xy) (hz : t'.position.z = z) (bs : List (Block α)) :
    let flat := (pass (Tool.step machine) t bs).2
    List.Forall₂ (Block.RaisesTo surface places) flat
      (pass (Tool.step machine) t' (pass (followStep surface places) z flat).2).2 := by
  induction bs generalizing t t' z with
  | nil => exact .nil
  | cons b bs ih =>
      simp only [pass_cons]
      have hplaced : (t.step machine b).2.place.target = (t.step machine b).2.targetFrom machine t.position := by
        rw [Tool.step_target, Tool.targetFrom_step]
      have hends := targetFrom_followStep_xy surface places hplaced hxy z
      have hrises := targetFrom_followStep_z surface places hplaced hz
      refine .cons ⟨?_, ?_⟩ (ih ?_ ?_)
      · rw [Tool.step_target, hends]
      · intro hraised
        rw [Tool.step_target, hrises, followStep_of_isRaised surface places _ z hraised]
      · rw [Tool.step_position, hends, Tool.step_target, Tool.step_position]
      · rw [Tool.step_position, hrises]

namespace Program

/-- What is written of a program that follows a surface takes the tool to the heights of the surface, and in the
plane where the program takes it. -/
theorem reaches_heights (p : Program α) (surface : Surface α) (settings : Settings α) (machine : Machine α) :
    let places := settings.format.decimalPlaces
    let blocks := p.flattened.flatMap (Block.linearized surface.cellSize (some surface.cellSize) places)
    let written := p.following surface places machine
    ((Edit.follow surface).apply p settings machine).2 = listing settings.format written ∧
      List.Forall₂ (Block.RaisesTo surface places) (ofBlocks blocks machine).executed
        (ofBlocks written machine).executed := by
  intro places blocks written
  refine ⟨p.apply_follow_snd surface settings machine, ?_⟩
  obtain ⟨hlines, hexecuted, -⟩ := ofBlocks_eq blocks machine
  obtain ⟨-, hexecuted', -⟩ := ofBlocks_eq written machine
  have hstart : (Tool.atStart machine).position.xy = (Tool.atStart machine).position.xy := rfl
  have hrun := pass_followStep surface places machine hstart rfl blocks
  rw [← hlines] at hrun
  rw [hexecuted', hexecuted, ← hlines]
  exact hrun

-- Displacements are counted from the corrected height, also after a line in the coordinates of the machine.
example :
    let _ := PlaneFunctions.straight
    let machine : Machine ℚ := { Machine.default with workOffset := ⟨0, 0, 8⟩ }
    let surface : Surface ℚ := ⟨fun x _ => x / 3, 100⟩
    let p := read "G1 X1 Z-1 F100\nG91 X1\nG90 G53 Z9\nG91 X4 Z-2\n" .default machine
    (ofBlocks (p.following surface 2 machine) machine).executed.map (·.place.target) =
      [⟨1, 0, -67 / 100⟩, ⟨2, 0, -33 / 100⟩, ⟨2, 0, 1⟩, ⟨6, 0, 1⟩] := by
  decide +kernel

end Program

end PartProgram
