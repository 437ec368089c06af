import PartProgram.Proofs.Edit.Flattening
import PartProgram.Proofs.Program.Framing

/-! # Running without calls

The program without calls can be placed as it is, without being written and read again. If the calls are
idle, it takes the tool where the program with calls takes it, and it has drawn the same when that program
ends. What comes after the end adds nothing any more.
-/

namespace PartProgram

variable {α : Type} [Scalar α]

omit [Scalar α] in
/-- A block without coordinates has neither axis words nor arc offsets. -/
theorem Block.words_eq_none {b : Block α} (h : b.hasCoordinates = false) : b.axes = .none ∧ b.i = none ∧ b.j = none := by
  simp only [hasCoordinates, Bool.or_eq_false_iff] at h
  obtain ⟨⟨haxes, hi⟩, hj⟩ := h
  refine ⟨?_, by simpa using hi, by simpa using hj⟩
  ext1 axis
  have hword := List.any_eq_false.mp haxes axis axis.mem_all
  simpa using hword

/-! ### What a step reads -/

/-- The blocks do not differ in what moves the tool and is drawn. -/
structure Block.MovesLike (b b' : Block α) : Prop where
  number : b'.number = b.number
  motion : b'.motion = b.motion
  axes : b'.axes = b.axes
  i : b'.i = b.i
  j : b'.j = b.j
  absolute : b'.absolute = b.absolute
  machineFrame : b'.machineFrame = b.machineFrame
  hidden : b'.hidden = b.hidden
  afterEnd : b'.afterEnd = b.afterEnd

namespace Tool

/-- A step sees no more of a block than what moves the tool and is drawn. -/
theorem step_of_movesLike {b b' : Block α} (h : b.MovesLike b') (machine : Machine α) (t : Tool α) :
    (t.step machine b').1 = (t.step machine b).1 ∧ (t.step machine b').2.place = (t.step machine b).2.place := by
  have hplacement : b'.placementFrom machine t.position = b.placementFrom machine t.position := by
    simp only [Block.placementFrom, Block.targetFrom, Block.axisTarget, Block.arcBetween, h.motion, h.axes, h.i, h.j,
      h.absolute, h.machineFrame]
  simp only [step, addExtent, Block.isDrawable, Block.hasXY, Block.x, Block.y, Block.z, Block.coordinates,
    Block.hasCoordinates, hplacement, h.number, h.motion, h.axes, h.i, h.j, h.machineFrame, h.hidden, h.afterEnd]
  split <;> exact ⟨rfl, rfl⟩

/-- What two runs through blocks that move alike have in common. -/
theorem pass_of_movesLike {bs bs' : List (Block α)} (h : List.Forall₂ Block.MovesLike bs bs') (machine : Machine α)
    (t : Tool α) :
    (pass (step machine) t bs').1 = (pass (step machine) t bs).1 ∧
      List.Forall₂ (fun b b' => b'.place = b.place) (pass (step machine) t bs).2 (pass (step machine) t bs').2 := by
  induction h generalizing t with
  | nil => exact ⟨rfl, .nil⟩
  | cons hb _ ih =>
      obtain ⟨hstate, hplace⟩ := step_of_movesLike hb machine t
      rw [pass_cons, pass_cons, hstate]
      exact ⟨(ih _).1, .cons hplace (ih _).2⟩

end Tool

/-! ### What adds nothing -/

/-- The block is not drawn, or it has no coordinate to draw. -/
def Block.isQuiet (b : Block α) : Bool := !(b.isDrawable && b.hasCoordinates)

namespace Tool

/-- A step that draws adds the coordinates of its block. -/
theorem coordinates_step (machine : Machine α) (t : Tool α) (b : Block α) : (t.step machine b).1.coordinates.toList =
    t.coordinates.toList ++ if b.isDrawable then (t.step machine b).2.coordinates else [] := by
  cases hdrawable : b.isDrawable with
  | false =>
      have hplaced : ({ b with place := b.placementFrom machine t.position } : Block α).isDrawable = false := hdrawable
      simp [step, hplaced]
  | true =>
      have hplaced : ({ b with place := b.placementFrom machine t.position } : Block α).isDrawable = true := hdrawable
      simp [step, hplaced]

theorem step_of_isQuiet {b : Block α} (h : b.isQuiet = true) (machine : Machine α) (t : Tool α) :
    (t.step machine b).1.extent = t.extent ∧
      (t.step machine b).1.coordinates.toList = t.coordinates.toList := by
  have hdrawable : (t.step machine b).2.isDrawable = b.isDrawable := by rw [eq_of_step]; rfl
  have haxes : (t.step machine b).2.axes = b.axes := by rw [eq_of_step]
  have hsilent : (t.step machine b).2.hasCoordinates = b.hasCoordinates := by rw [eq_of_step]; rfl
  rw [coordinates_step, step_draws]
  change (t.draw _).extent = _ ∧ _
  rw [draw, hdrawable]
  split
  · rename_i hdrawn
    have hcoordinates : b.hasCoordinates = false := by simpa [Block.isQuiet, hdrawn] using h
    rw [(Block.words_eq_none hcoordinates).1] at haxes
    simp [addExtent, Block.hasXY, Block.x, Block.y, Block.z, haxes, Block.coordinates, hsilent, hcoordinates]
  · simp

theorem pass_of_isQuiet {bs : List (Block α)} (h : ∀ b ∈ bs, b.isQuiet = true) (machine : Machine α) (t : Tool α) :
    (pass (step machine) t bs).1.extent = t.extent ∧
      (pass (step machine) t bs).1.coordinates.toList = t.coordinates.toList := by
  induction bs generalizing t with
  | nil => exact ⟨rfl, rfl⟩
  | cons b bs ih =>
      obtain ⟨hextent, hcoordinates⟩ := step_of_isQuiet (h b (by simp)) machine t
      obtain ⟨hextent', hcoordinates'⟩ := ih (fun b hb => h b (by simp [hb])) (t.step machine b).1
      rw [pass_cons]
      exact ⟨hextent'.trans hextent, hcoordinates'.trans hcoordinates⟩

end Tool

namespace Program

/-- What stands for a line that calls moves like it, as long as the line has no words that move the tool. -/
theorem movesLike_flattenLine {b : Block α} (hend : b.afterEnd = false)
    (hcall : b.call.isSome = true → b.hasCoordinates = false ∧ b.machineFrame = false) :
    b.MovesLike (flattenLine b) := by
  cases hcalls : b.call.isSome with
  | false =>
      rw [flattenLine_of_not_isBlanked (by rw [Block.isBlanked, hend, hcalls]; rfl)]
      exact ⟨rfl, rfl, rfl, rfl, rfl, rfl, rfl, rfl, rfl⟩
  | true =>
      obtain ⟨hcoordinates, hframe⟩ := hcall hcalls
      obtain ⟨haxes, hi, hj⟩ := Block.words_eq_none hcoordinates
      obtain ⟨before, after, -, heq⟩ := exists_flattenLine_eq (b := b) (by rw [Block.isBlanked, hcalls, Bool.or_true])
      rw [heq]
      exact ⟨rfl, rfl, haxes.symm, hi.symm, hj.symm, rfl, hframe.symm, rfl, hend.symm⟩

/-- What stands for a line after the end of the program adds nothing. -/
theorem isQuiet_flattenLine {b : Block α} (hend : b.afterEnd = true) : (flattenLine b).isQuiet = true := by
  obtain ⟨before, after, -, heq⟩ := exists_flattenLine_eq (b := b) (by rw [Block.isBlanked, hend, Bool.true_or])
  rw [heq, Block.isQuiet, Bool.and_comm]
  rfl

variable (lines : List String) (settings : Settings α) (machine : Machine α)

/-- Moving the tool through the placed steps takes it through what it was placed along. -/
theorem tool_running :
    (pass (Tool.step machine) (.atStart machine) (asRead lines settings).running).1 =
      (pass (Tool.step machine) (.atStart machine) (ofLines lines settings machine).executed).1 := by
  rw [ofLines_eq, executed_place_eq, Tool.pass_step_placed]

/-- What is known of a program that has been read is what its steps draw. -/
theorem drawn_ofLines :
    let p := ofLines lines settings machine
    let last := (pass (Tool.step machine) (.atStart machine) p.executed).1
    p.extent = last.extent ∧ p.coordinates = last.coordinates.toList := by
  intro p last
  simp only [last, p, ← tool_running]
  exact ⟨extent_place_eq _ machine, coordinates_place_eq _ machine⟩

/-- The figures of a program that has been read are those that its steps begin. -/
theorem figures_ofLines : (ofLines lines settings machine).figures =
    (pass (Tool.step machine) (.atStart machine) (ofLines lines settings machine).executed).1.figures := by
  rw [← tool_running]
  exact figures_place_eq _ machine

/-- The program without calls draws what the program draws, and up to the end of the program it takes the tool to
the same places. -/
theorem draws_flattened
    (hcalls : ∀ b ∈ (ofLines lines settings machine).executed, b.afterEnd = false → b.call.isSome = true →
      b.hasCoordinates = false ∧ b.machineFrame = false) :
    let p := ofLines lines settings machine
    let q := ofBlocks p.flattened machine
    q.extent = p.extent ∧ q.coordinates = p.coordinates ∧
      List.Forall₂ (fun b b' => b.afterEnd = false → b'.place = b.place) p.executed q.executed := by
  intro p q
  obtain ⟨before, after, hexecuted, hbefore, hafter, -⟩ := executed_eq_append lines settings machine
  obtain ⟨-, hsteps, hextent, hcoordinates⟩ := ofBlocks_eq p.flattened machine
  obtain ⟨hextent', hcoordinates'⟩ : p.extent = (pass (Tool.step machine) (.atStart machine) p.executed).1.extent ∧
      p.coordinates = (pass (Tool.step machine) (.atStart machine) p.executed).1.coordinates.toList :=
    drawn_ofLines lines settings machine
  have hplaced : (pass (Tool.step machine) (.atStart machine) p.executed).2 = p.executed :=
    pass_executed_ofLines lines settings machine
  change p.executed = before ++ after at hexecuted
  have hflat : p.flattened = before.map flattenLine ++ after.map flattenLine := by
    rw [flattened_ofLines, ← List.map_append, ← hexecuted]
  have hfront : List.Forall₂ Block.MovesLike before (before.map flattenLine) := by
    rw [List.forall₂_map_right_iff, List.forall₂_same]
    exact fun b hb => movesLike_flattenLine (hbefore b hb) (hcalls b (hexecuted ▸ by simp [hb]) (hbefore b hb))
  -- The runs agree up to the end of the program, and neither adds anything from there on.
  obtain ⟨hstate, hplaces⟩ := Tool.pass_of_movesLike hfront machine (.atStart machine)
  have hback : ∀ b ∈ after, b.isQuiet = true := fun b hb => by simp [Block.isQuiet, Block.isDrawable, hafter b hb]
  have hback' : ∀ b ∈ after.map flattenLine, b.isQuiet = true := by
    intro b' hb'
    obtain ⟨b, hb, rfl⟩ := List.mem_map.mp hb'
    exact isQuiet_flattenLine (hafter b hb)
  simp only [hflat, pass_append] at hextent hcoordinates hsteps
  simp only [hexecuted, pass_append] at hextent' hcoordinates' hplaced
  obtain ⟨hfirst, -⟩ := List.append_inj hplaced (by simp)
  refine ⟨?_, ?_, ?_⟩
  · change (ofBlocks p.flattened machine).extent = p.extent
    rw [hflat, hextent, hextent', (Tool.pass_of_isQuiet hback' ..).1, (Tool.pass_of_isQuiet hback ..).1, hstate]
  · change (ofBlocks p.flattened machine).coordinates = p.coordinates
    rw [hflat, hcoordinates, hcoordinates', (Tool.pass_of_isQuiet hback' ..).2, (Tool.pass_of_isQuiet hback ..).2, hstate]
  · change List.Forall₂ _ p.executed (ofBlocks p.flattened machine).executed
    rw [hexecuted, hflat, hsteps]
    rw [hfirst] at hplaces
    refine List.rel_append (R := fun b b' : Block α => b.afterEnd = false → b'.place = b.place)
      (hplaces.imp fun b b' hplace (_ : b.afterEnd = false) => hplace)
      (forall₂_of_getElem? (by simp) fun n b b' hb _ hend => ?_)
    rw [hafter b (List.mem_of_getElem? hb)] at hend
    contradiction

/-- A body with an arc, called twice, that calls another one, and a line after the end. -/
theorem draws_flattened_nested :
    let _ := PlaneFunctions.axial
    let machine : Machine ℚ := .default
    let p := read "G0 X1 Y2\nM98 P1 L2\nG90 G1 X0 F100\nM30\nO1\nG91 G3 X4 I2\nM98 P2\nM99\nO2\nG1 Y1\nM99\nX50\n"
      .default machine
    let q := ofBlocks p.flattened machine
    ((∀ b ∈ p.executed, b.afterEnd = false → b.call.isSome = true → b.hasCoordinates = false ∧ b.machineFrame = false) ∧
      ((p.executed.any fun b => b.inlined && b.call.isSome) && (p.executed.any fun b => b.afterEnd && b.hasXY)) = true) ∧
    q.extent = p.extent ∧ q.coordinates = p.coordinates ∧
      List.Forall₂ (fun b b' => b.afterEnd = false → b'.place = b.place) p.executed q.executed := by
  intro _ machine p q
  have hcalls : ∀ b ∈ p.executed, b.afterEnd = false → b.call.isSome = true →
      b.hasCoordinates = false ∧ b.machineFrame = false := by decide +kernel
  exact ⟨⟨hcalls, by decide +kernel⟩, draws_flattened _ .default machine hcalls⟩

end Program

end PartProgram
