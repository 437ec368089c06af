import PartProgram.Proofs.Edit.Shifting
import PartProgram.Proofs.Edit.Slots

/-! # Lines of a relative program that are shifted

The shift is pending until a rapid move has taken it over. Up to there the tool is where it has been without the
shift, and from there on it is shifted, whatever the lines are.
-/

namespace PartProgram

variable {α : Type} [Field α] [LinearOrder α] [FloorRing α] [PlaneFunctions α]

/-- How far back the path lies: all the way once the shift has been carried. -/
def carried (delta : Point α) (released : Bool) : Point α := if released then delta else ⟨0, 0⟩

namespace PlaneMap

theorem position_back_zero (p : Position α) : (back ⟨0, 0⟩).position p = p := by
  have hzero : ∀ m : MirrorAxis, ∀ v : α, (back ⟨0, 0⟩).coordinate m v = v := by
    intro m v
    rw [coordinate_back]
    cases m <;> exact sub_zero v
  rw [position, hzero, hzero]

end PlaneMap

/-! ### One line -/

namespace Block

variable (delta : Point α) {b : Block α}

/-- A block in relative distances takes the tool as far as before from wherever it is. -/
theorem targetFrom_back (h : b.hasCoordinates = true → b.absolute = false) (machine : Machine α) (p : Position α) :
    b.targetFrom machine ((PlaneMap.back delta).position p) =
      (PlaneMap.back delta).position (b.targetFrom machine p) := by
  have haxis : ∀ (axis : Axis) (v offset d : α), b.axisTarget axis (v - d) offset = b.axisTarget axis v offset - d := by
    intro axis v offset d
    rw [axisTarget, axisTarget]
    cases hword : b.axes.get axis with
    | none => rfl
    | some w =>
        have habsolute : b.absolute = false := h (hasCoordinates_of_axis (by rw [hword]; rfl))
        simp only [habsolute, Bool.false_eq_true, if_false]
        exact sub_add_eq_add_sub v d w
  simp only [targetFrom, PlaneMap.position, PlaneMap.coordinate_back, haxis]

/-- The block that has taken over the shift. -/
def laden (b : Block α) : Block α :=
  { b with
    axes := (b.axes.set .x (some (b.x.getD 0 - delta.x))).set .y (some (b.y.getD 0 - delta.y))
    modified := true }

theorem hasXY_laden (b : Block α) : (b.laden delta).hasXY = true := by
  simp [laden, hasXY, y]

theorem z_laden (b : Block α) : (b.laden delta).z = b.z :=
  b.axes.get_set_plane_of_ne _ _ (by decide) (by decide)

theorem shifted_of_takesShift (h : b.takesShift = true) :
    b.shifted delta ⟨true, true⟩ = (⟨false, false⟩, b.laden delta) := by
  have hzero : (Scalar.ofNat 0 : α) = 0 := Nat.cast_zero
  simp only [takesShift, Bool.and_eq_true, Bool.not_eq_true'] at h
  simp only [shifted, h.1, h.2, Bool.false_eq_true, if_false, if_true, laden, OfNat.ofNat, hzero]

/-- Any other line of a relative program stays as it is, and so does every line once the shift has been carried. -/
theorem shifted_of_idle (hrelative : b.hasCoordinates = true → b.absolute = false) {released : Bool}
    (h : b.takesShift = true → released = true) :
    b.shifted delta ⟨!released, !released⟩ = (⟨!released, !released⟩, b) := by
  rw [shifted]
  cases habsolute : b.absolute with
  | true =>
      have hxy : b.hasXY = false := by
        by_contra hxy
        rw [hrelative (hasCoordinates_of_hasXY (by simpa using hxy))] at habsolute
        simp at habsolute
      simp [hxy]
  | false =>
      have hcarries : b.carriesShift ⟨!released, !released⟩ = false := by
        cases hreleased : released with
        | true => simp [carriesShift]
        | false => simpa [takesShift, habsolute, hreleased] using h
      simp [hcarries]

/-- The block that has taken over the shift ends in the shifted place. -/
theorem targetFrom_laden (habsolute : b.absolute = false) (machine : Machine α) (p : Position α) :
    (b.laden delta).targetFrom machine p = (PlaneMap.back delta).position (b.targetFrom machine p) := by
  have hreach : ∀ (m : MirrorAxis) (v offset : α), (b.laden delta).axisTarget m.axis v offset =
      b.axisTarget m.axis v offset - m.along delta := by
    intro m v offset
    have hword : (b.laden delta).axes.get m.axis = some ((b.axes.get m.axis).getD 0 - m.along delta) := by
      rw [laden, AxisWords.get_set_plane]
      cases m <;> rfl
    have hladen : (b.laden delta).absolute = false := habsolute
    rw [axisTarget, axisTarget, hword]
    simp only [habsolute, hladen, Bool.false_eq_true, if_false]
    cases b.axes.get m.axis with
    | none => exact (add_sub_assoc v 0 _).symm.trans (by rw [add_zero])
    | some w => exact (add_sub_assoc v w _).symm
  have hz : (b.laden delta).axes.get .z = b.axes.get .z := z_laden delta b
  have hheight : ∀ v offset : α, (b.laden delta).axisTarget .z v offset = b.axisTarget .z v offset := by
    intro v offset
    rw [axisTarget, axisTarget, hz]
    rfl
  have hx := hreach .x p.x machine.workOffset.x
  have hy := hreach .y p.y machine.workOffset.y
  simp only [MirrorAxis.axis] at hx hy
  simp only [targetFrom, PlaneMap.position, PlaneMap.coordinate_back, hx, hy, hheight]

end Block

/-! ### One step -/

/-- The second block is what has become of the first: `d` and `d'` are how far back it starts and ends. -/
structure Block.CarriedTo (d d' : Point α) (b b' : Block α) : Prop where
  edit : b.EditOf b'
  motion : b'.motion = b.motion
  hasXY : b'.hasXY = b.hasXY
  z : b'.z = b.z
  origin : b'.place.origin = (PlaneMap.back d).position b.place.origin
  target : b'.place.target = (PlaneMap.back d').position b.place.target
  arc : b'.place.arc = b.place.arc.map fun a => { a with center := a.center - d }

namespace Block.CarriedTo

variable {d d' : Point α} {b b' : Block α}

/-- Two placed blocks, where the second one starts from the shifted place. -/
theorem of_step {machine : Machine α} {t t' : Tool α} (hplaced : (t.step machine b).2 = b) (hedit : b.EditOf b')
    (hmotion : b'.motion = b.motion) (hi : b'.i = b.i) (hj : b'.j = b.j) (hxy : b'.hasXY = b.hasXY) (hz : b'.z = b.z)
    (hposition : t'.position = (PlaneMap.back d).position t.position)
    (htarget : b'.targetFrom machine t'.position = (PlaneMap.back d').position (b.targetFrom machine t.position))
    (harc : d' = d ∨ b.motion.isArc = false) : b.CarriedTo d d' (t'.step machine b').2 := by
  have hwords := t'.eq_of_step machine b'
  have horigin : b.place.origin = t.position := by
    rw [← hplaced, Tool.step_origin]
  have hend : b.place.target = b.targetFrom machine t.position := by
    conv_lhs => rw [← hplaced, Tool.step_target]
  have hpath : b.place.arc = b.arcBetween t.position.xy (b.targetFrom machine t.position).xy := by
    conv_lhs => rw [← hplaced, Tool.step_arc]
  refine ⟨hedit.trans (Block.editOf_step machine t' b'), ?_, ?_, ?_, ?_, ?_, ?_⟩
  · rw [hwords]
    exact hmotion
  · rw [hwords]
    exact hxy
  · rw [hwords]
    exact hz
  · rw [Tool.step_origin, hposition, horigin]
  · rw [Tool.step_target, htarget, hend]
  · rw [Tool.step_arc, hpath, htarget, hposition, PlaneMap.position_xy, PlaneMap.position_xy, PlaneMap.point_back,
      PlaneMap.point_back]
    rw [arcBetween, arcBetween, hmotion, hi, hj]
    rcases harc with rfl | harc
    · split
      · split
        · rw [Arc.ofOffsets_sub]
          rfl
        · rfl
      · rfl
    · rw [Motion.isArc, Option.isSome_eq_false_iff, Option.isNone_iff_eq_none] at harc
      rw [harc]
      rfl

/-- A cut whose start and end have been shifted adds to an extent what it has added before, shifted. -/
theorem framedBy {delta : Point α} (h : b.CarriedTo d d' b') (hcut : b.isBounded = true → d = delta ∧ d' = delta) :
    b.FramedBy (.back delta) b' where
  drawable := by simp only [isDrawable, h.edit.machineFrame, h.edit.hidden, h.edit.afterEnd]
  engaged := by rw [h.motion]
  hasXY := h.hasXY
  z := h.z
  height := by
    rw [h.target]
    rfl
  cut := by
    intro hdrawable hengaged hxy
    obtain ⟨rfl, rfl⟩ := hcut (by rw [isBounded, hdrawable, hengaged, hxy]; rfl)
    refine ⟨?_, ?_, ?_⟩
    · rw [h.origin, PlaneMap.position_xy]
    · rw [h.target, PlaneMap.position_xy]
    · rw [h.arc]
      cases b.place.arc with
      | none => exact .none
      | some a =>
          refine .some (.of_eq ?_)
          rw [Arc.boxPoints_sub, PlaneMap.back_point_eq]

end Block.CarriedTo

/-- A line is shifted and then placed. -/
def Tool.shiftedStep (machine : Machine α) (delta : Point α) (state : Pending × Tool α) (b : Block α) :
    (Pending × Tool α) × Block α :=
  let (pending, b) := b.shifted delta state.1
  let (t, b) := state.2.step machine b
  ((pending, t), b)

/-- Shifting and placing line by line comes to the same as shifting all lines and then placing them. -/
theorem Tool.pass_shiftedStep (machine : Machine α) (delta : Point α) (pending : Pending) (t : Tool α)
    (bs : List (Block α)) :
    let shifted := (pass (fun pending b => b.shifted delta pending) pending bs).2
    let run := pass (shiftedStep machine delta) (pending, t) bs
    run.1.2 = (pass (step machine) t shifted).1 ∧ run.2 = (pass (step machine) t shifted).2 :=
  pass_pass (fun pending b => b.shifted delta pending) (step machine) pending t bs

/-- The tool in the shifted program follows the one in the program: the shift is pending in both coordinates until a
line before has taken it over, and then the tool is shifted. -/
structure Tool.Trails (delta : Point α) (before : List (Block α)) (t : Tool α) (state : Pending × Tool α) : Prop where
  pending : state.1 = ⟨!before.any Block.takesShift, !before.any Block.takesShift⟩
  position : state.2.position = (PlaneMap.back (carried delta (before.any Block.takesShift))).position t.position

namespace Tool.Trails

variable {delta : Point α} {before : List (Block α)} {t : Tool α} {state : Pending × Tool α} {machine : Machine α}

theorem atStart (delta : Point α) (machine : Machine α) :
    Trails delta [] (.atStart machine) (⟨true, true⟩, .atStart machine) :=
  ⟨rfl, (PlaneMap.position_back_zero _).symm⟩

section

variable (h : Trails delta before t state) {b b' : Block α} (hplaced : (t.step machine b).2 = b)
  (hmark : b.MarkedAs b') (hrelative : b.hasCoordinates = true → b.absolute = false)

include h hplaced hmark

theorem step_of_takesShift (htakes : b.takesShift = true) (hpending : before.any Block.takesShift = false) :
    Trails delta (before ++ [b]) (t.step machine b).1 (shiftedStep machine delta state b').1 ∧
      b.CarriedTo ⟨0, 0⟩ delta (shiftedStep machine delta state b').2 := by
  obtain ⟨hmotion, haxes, hi, hj, habsolute', htakes', htarget'⟩ := hmark.same
  obtain ⟨pending, t'⟩ := state
  obtain ⟨rfl, hposition⟩ := h
  rw [hpending, carried, if_neg Bool.false_ne_true] at hposition
  have hreleased : (before ++ [b]).any Block.takesShift = true := by simp [htakes]
  obtain ⟨habsolute, -, hrapid, hxy⟩ := Block.takesShift_iff.mp htakes
  have hstep : shiftedStep machine delta (⟨!before.any Block.takesShift, !before.any Block.takesShift⟩, t') b' =
      ((⟨false, false⟩, (t'.step machine (b'.laden delta)).1), (t'.step machine (b'.laden delta)).2) := by
    rw [hpending]
    simp only [shiftedStep, Bool.not_false, Block.shifted_of_takesShift delta (htakes'.trans htakes)]
  have htarget : (b'.laden delta).targetFrom machine t'.position =
      (PlaneMap.back delta).position (b.targetFrom machine t.position) := by
    rw [Block.targetFrom_laden delta (habsolute'.trans habsolute), hposition, PlaneMap.position_back_zero, htarget']
  rw [hstep]
  refine ⟨⟨?_, ?_⟩, .of_step hplaced ?_ hmotion hi hj ?_ ?_ hposition htarget (.inr (by rw [hrapid]; rfl))⟩
  · rw [hreleased]
    rfl
  · rw [hreleased, Tool.step_position, Tool.step_position, htarget, carried, if_pos rfl]
  · exact hmark.edit.trans (.of_modified rfl rfl)
  · rw [Block.hasXY_laden, hxy]
  · rw [Block.z_laden, Block.z, haxes, Block.z]

include hrelative

theorem step_of_idle (hidle : b.takesShift = true → before.any Block.takesShift = true) :
    Trails delta (before ++ [b]) (t.step machine b).1 (shiftedStep machine delta state b').1 ∧
      b.CarriedTo (carried delta (before.any Block.takesShift)) (carried delta (before.any Block.takesShift))
        (shiftedStep machine delta state b').2 := by
  obtain ⟨hmotion, haxes, hi, hj, habsolute', htakes', htarget'⟩ := hmark.same
  obtain ⟨pending, t'⟩ := state
  obtain ⟨rfl, hposition⟩ := h
  have hsame : (before ++ [b]).any Block.takesShift = before.any Block.takesShift := by
    simpa using hidle
  have hrelative' : b'.hasCoordinates = true → b'.absolute = false := by
    rw [habsolute', Block.hasCoordinates, haxes, hi, hj]
    exact hrelative
  have hstep : shiftedStep machine delta (⟨!before.any Block.takesShift, !before.any Block.takesShift⟩, t') b' =
      ((⟨!before.any Block.takesShift, !before.any Block.takesShift⟩, (t'.step machine b').1),
        (t'.step machine b').2) := by
    simp only [shiftedStep, Block.shifted_of_idle delta hrelative' (htakes' ▸ hidle)]
  have htarget : b'.targetFrom machine t'.position =
      (PlaneMap.back (carried delta (before.any Block.takesShift))).position (b.targetFrom machine t.position) := by
    rw [hposition, htarget', Block.targetFrom_back _ hrelative]
  have hwords : b'.hasXY = b.hasXY ∧ b'.z = b.z := by
    rw [Block.hasXY, Block.x, Block.y, Block.z, haxes]
    exact ⟨rfl, rfl⟩
  rw [hstep]
  refine ⟨⟨?_, ?_⟩, .of_step hplaced hmark.edit hmotion hi hj hwords.1 hwords.2 hposition htarget (.inl rfl)⟩
  · rw [hsame]
  · rw [hsame, Tool.step_position, Tool.step_position, htarget]

/-- One line of a relative program. -/
theorem step : Trails delta (before ++ [b]) (t.step machine b).1 (shiftedStep machine delta state b').1 ∧
      b.CarriedTo (carried delta (before.any Block.takesShift)) (carried delta ((before ++ [b]).any Block.takesShift))
        (shiftedStep machine delta state b').2 := by
  by_cases hidle : b.takesShift = true → before.any Block.takesShift = true
  · have hsame : (before ++ [b]).any Block.takesShift = before.any Block.takesShift := by
      simpa using hidle
    rw [hsame]
    exact h.step_of_idle hplaced hmark hrelative hidle
  · obtain ⟨htakes, hpending⟩ := Classical.not_imp.mp hidle
    rw [Bool.not_eq_true] at hpending
    have hreleased : (before ++ [b]).any Block.takesShift = true := by simp [htakes]
    rw [hpending, hreleased]
    exact h.step_of_takesShift hplaced hmark htakes hpending

end

/-- The lines of a relative program, some of them marked. -/
theorem pass (h : Trails delta before t state) {bs bs' : List (Block α)}
    (hplaced : (PartProgram.pass (Tool.step machine) t bs).2 = bs) (hmarked : List.Forall₂ Block.MarkedAs bs bs')
    (hrelative : ∀ b ∈ bs, b.hasCoordinates = true → b.absolute = false) :
    let placed := PartProgram.pass (shiftedStep machine delta) state bs'
    Trails delta (before ++ bs) (PartProgram.pass (Tool.step machine) t bs).1 placed.1 ∧
      ∀ (n : ℕ) (b b' : Block α), bs[n]? = some b → placed.2[n]? = some b' →
        b.CarriedTo (carried delta ((before ++ bs.take n).any Block.takesShift))
          (carried delta ((before ++ bs.take (n + 1)).any Block.takesShift)) b' := by
  intro placed
  have hstep : ∀ (before : List (Block α)) t state (x x' : Block α), Trails delta before t state →
      ((t.step machine x).2.MarkedAs x' ∧
        ((t.step machine x).2.hasCoordinates = true → (t.step machine x).2.absolute = false)) →
      Trails delta (before ++ [(t.step machine x).2]) (t.step machine x).1 (shiftedStep machine delta state x').1 ∧
        (t.step machine x).2.CarriedTo (carried delta (before.any Block.takesShift))
          (carried delta ((before ++ [(t.step machine x).2]).any Block.takesShift))
          (shiftedStep machine delta state x').2 := by
    intro before t state x x' h ⟨hmark, hrelative⟩
    have hplaced := t.step_placed machine x
    have hone := h.step (by rw [hplaced]) hmark hrelative
    rwa [hplaced] at hone
  have hlines : List.Forall₂ (fun b b' => b.MarkedAs b' ∧ (b.hasCoordinates = true → b.absolute = false))
      (PartProgram.pass (Tool.step machine) t bs).2 bs' := by
    rw [hplaced]
    exact ((List.forall₂_and_left bs bs').mpr ⟨hrelative, hmarked⟩).imp fun b b' hb => ⟨hb.2, hb.1⟩
  refine ⟨?_, ?_⟩
  · have hlast := pass_simulation (fun before t state x x' h hx => (hstep before t state x x' h hx).1) before h hlines
    rwa [hplaced] at hlast
  · intro n b b' hb hb'
    have hsteps := getElem?_pass_simulation (Q := fun before b b' => b.CarriedTo
      (carried delta (before.any Block.takesShift)) (carried delta ((before ++ [b]).any Block.takesShift)) b')
      hstep before h hlines (by rw [hplaced]; exact hb) hb'
    rw [hplaced, List.append_assoc] at hsteps
    rwa [List.take_succ_of_getElem? hb]

/-- If the shift has been carried before each cut, the extent is shifted. -/
theorem framedBy_pass [IsStrictOrderedRing α] (h : Trails delta before t state) {bs bs' : List (Block α)}
    (hplaced : (PartProgram.pass (Tool.step machine) t bs).2 = bs) (hmarked : List.Forall₂ Block.MarkedAs bs bs')
    (hrelative : ∀ b ∈ bs, b.hasCoordinates = true → b.absolute = false)
    (hframed : FramedBy (.back delta) t state.2)
    (hcut : ∀ (n : ℕ) (b : Block α), bs[n]? = some b → b.isBounded = true →
      (before ++ bs.take n).any Block.takesShift = true) :
    FramedBy (.back delta) (PartProgram.pass (Tool.step machine) t bs).1
      (PartProgram.pass (shiftedStep machine delta) state bs').1.2 := by
  obtain ⟨-, hsteps⟩ := h.pass hplaced hmarked hrelative
  obtain ⟨pending, t'⟩ := state
  obtain ⟨hlast, hresults⟩ := pass_shiftedStep machine delta pending t' bs'
  rw [hlast]
  refine hframed.pass ?_
  rw [hplaced, ← hresults]
  refine forall₂_of_getElem? ?_ fun n b b' hb hb' => (hsteps n b b' hb hb').framedBy fun hbounded => ?_
  · rw [length_pass, hmarked.length_eq]
  · have hreleased := hcut n b hb hbounded
    have hreleased' : (before ++ bs.take (n + 1)).any Block.takesShift = true := by
      rw [List.take_succ_of_getElem? hb, ← List.append_assoc, List.any_append, hreleased, Bool.true_or]
    rw [hreleased, hreleased', carried, if_pos rfl]
    exact ⟨rfl, rfl⟩

end Tool.Trails

end PartProgram
