import PartProgram.Proofs.Program.Mapping

/-! # The path turned about a point

A turn acts on a program as one similarity. An absolute line gets both of its coordinates from where it
ends, a relative line and an arc only turn their displacements, and a line without coordinates stays where
the line before it has gone.
-/

namespace PartProgram

namespace Similarity

variable {α : Type} [Scalar α]

/-- Where a point goes when the plane is turned about `o`. -/
def about (s : Similarity α) (o p : Point α) : Point α := s.ofVector (p - o) + o

end Similarity

namespace Block

variable {α : Type} [Scalar α] (s : Similarity α) (b : Block α)

/-- Without copies a coordinate word is turned with the place that the line reaches, or with the displacement
that it stands for. -/
theorem turnedAxes_of_hasXY (h : b.hasXY = true) :
    b.turnedAxes s [] = (b.axes.set .x (some (b.turnedEnd s []).1.x)).set .y (some (b.turnedEnd s []).1.y) := by
  have hfill : (b.turnedEnd s []).2 = true := by
    simp only [turnedEnd, turnedFrom]
    split
    · split <;> rfl
    · rfl
  rw [turnedAxes, if_pos h]
  simp only [hfill, Bool.true_or, if_true]

/-- An arc that has an offset gets both. -/
theorem turned_offset (h : (b.i.isSome || b.j.isSome) = true) :
    (b.turned s []).i = some (s.ofVector ⟨b.i.getD 0, b.j.getD 0⟩).x ∧
      (b.turned s []).j = some (s.ofVector ⟨b.i.getD 0, b.j.getD 0⟩).y := by
  have hplane : b.writesPlane = true := by
    simp only [writesPlane, Bool.or_eq_true] at h ⊢
    tauto
  simp only [turned, hplane, h, if_true, and_self]

theorem turned_offset_of_not (h : (b.i.isSome || b.j.isSome) = false) :
    (b.turned s []).i = b.i ∧ (b.turned s []).j = b.j := by
  rw [turned]
  split
  · simp [h]
  · exact ⟨rfl, rfl⟩

end Block

/-! ### Programs without copies -/

section

variable {α : Type} [Scalar α]

theorem Program.IsStraight.lines_turn {p : Program α} (h : p.IsStraight) (s : Similarity α)
    (heditable : ∀ b ∈ p.lines, b.isEditable = true) : (p.turn s).lines = p.lines.map (Block.turned s []) := by
  have hcopies : p.entries.flatMap (·.copies) = [] := List.flatMap_eq_nil_iff.mpr h
  have htargets : ∀ n, p.copyTargets.getD n [] = [] := by
    intro n
    simp [copyTargets, hcopies, Array.getD]
  apply List.ext_getElem?
  intro n
  simp only [Program.turn, lines, htargets, List.getElem?_map, List.getElem?_mapIdx]
  cases hentry : p.entries[n]? with
  | none => rfl
  | some e =>
      have hmem : e.line ∈ p.lines := List.mem_map_of_mem (List.mem_of_getElem? hentry)
      simp [heditable e.line hmem]

end

/-! ### One step -/

variable {α : Type} [Field α] [LinearOrder α] [IsStrictOrderedRing α] [FloorRing α] [PlaneFunctions α]

namespace Similarity

variable (s : Similarity α)

omit [IsStrictOrderedRing α] in
theorem ofVector_eq (v : Point α) :
    let c := Scalar.cos (Scalar.toRadians s.degrees)
    let d := Scalar.sin (Scalar.toRadians s.degrees)
    s.ofVector v = ⟨s.scale * (c * v.x - d * v.y), s.scale * (d * v.x + c * v.y)⟩ := by
  intro c d
  change Point.mk ((v.x * c - v.y * d) * s.scale) ((v.x * d + v.y * c) * s.scale) = _
  congr 1 <;> ring

omit [IsStrictOrderedRing α] in
theorem about_self (o : Point α) : s.about o o = o := by
  rw [about, ofVector_eq]
  ext <;> simp

omit [IsStrictOrderedRing α] in
/-- A displacement is turned wherever it starts. -/
theorem about_add (o p v : Point α) : s.about o (p + v) = s.about o p + s.ofVector v := by
  rw [about, about, ofVector_eq, ofVector_eq, ofVector_eq]
  ext
  · simp only [Point.add_x, Point.sub_x, Point.add_y, Point.sub_y]
    ring
  · simp only [Point.add_x, Point.sub_x, Point.add_y, Point.sub_y]
    ring

end Similarity

/-- The line has an absolute word in the plane. -/
def Block.anchorsPlane {α : Type} (b : Block α) : Bool := b.absolute && b.hasXY

/-- The point about which a run has been turned: the pivot from the first absolute word in the plane on, and
before it the place where the tool starts. -/
def Similarity.center (s : Similarity α) (start : Point α) (before : List (Block α)) : Point α :=
  if before.any Block.anchorsPlane then s.pivot else start

namespace Block

variable (s : Similarity α) {b : Block α}

omit [IsStrictOrderedRing α] in
/-- Displacements that are not written are zero. -/
theorem targetFrom_xy_of_relative (machine : Machine α) (p : Position α) (h : b.absolute = false) :
    (b.targetFrom machine p).xy = p.xy + ⟨b.x.getD 0, b.y.getD 0⟩ := by
  have htarget : ∀ (axis : Axis) (previous offset : α),
      b.axisTarget axis previous offset = previous + (b.axes.get axis).getD 0 := by
    intro axis previous offset
    rw [axisTarget]
    cases b.axes.get axis with
    | none => exact (add_zero _).symm
    | some v => simp [h]
  ext
  · exact htarget .x p.x _
  · exact htarget .y p.y _

omit [IsStrictOrderedRing α] in
/-- A turned block takes the image of its start to the image of its end. -/
theorem targetFrom_turned (machine : Machine α) {p p' : Position α} {start : Point α} {before : List (Block α)}
    (hframe : b.machineFrame = false) (hplace : b.place.target = b.targetFrom machine p)
    (hp : p'.xy = s.about (s.center start before) p.xy) (hz : p'.z = p.z) :
    ((b.turned s []).targetFrom machine p').xy = s.about (s.center start (before ++ [b])) b.place.target.xy ∧
      ((b.turned s []).targetFrom machine p').z = b.place.target.z := by
  have hedit := b.editOf_turned s []
  have hcenter : s.center start (before ++ [b]) = if b.anchorsPlane then s.pivot else s.center start before := by
    cases hanchors : b.anchorsPlane <;> simp [Similarity.center, hanchors]
  rw [hcenter]
  cases hwords : b.hasXY with
  | false =>
      have hanchors : b.anchorsPlane = false := by simp [anchorsPlane, hwords]
      have haxes : (b.turned s []).axes = b.axes := by
        rw [turned_axes, turnedAxes, hwords]
        rfl
      have hxy := Block.targetFrom_xy_of_not_hasXY hwords machine
      have hsame : (b.turned s []).targetFrom machine p' = b.targetFrom machine p' := by
        simp only [Block.targetFrom, axisTarget, haxes, hedit.absolute, hedit.machineFrame]
      rw [hsame, hplace, hxy, hxy, hp, hanchors]
      refine ⟨rfl, ?_⟩
      simp only [Block.targetFrom, hz]
  | true =>
      have haxes := (b.turned_axes s []).trans (b.turnedAxes_of_hasXY s hwords)
      have hx : (b.turned s []).x = some (b.turnedEnd s []).1.x := by
        rw [x, haxes, AxisWords.get_set_of_ne _ _ (by decide), AxisWords.get_set_self]
      have hy : (b.turned s []).y = some (b.turnedEnd s []).1.y := by
        rw [y, haxes, AxisWords.get_set_self]
      have hz' : (b.turned s []).z = b.z := by
        rw [z, haxes, AxisWords.get_set_of_ne _ _ (by decide), AxisWords.get_set_of_ne _ _ (by decide)]
        rfl
      refine ⟨?_, ?_⟩
      · cases habsolute : b.absolute with
        | true =>
            have hanchors : b.anchorsPlane = true := by simp [anchorsPlane, habsolute, hwords]
            have hend : (b.turnedEnd s []).1 = s.about s.pivot b.place.target.xy := by
              have hfrom : (b.turnedFrom []).1 = b.place.target.xy := by
                rw [turnedFrom]
                split <;> rfl
              rw [turnedEnd, if_pos habsolute, ← hfrom]
              rfl
            have hframe' := hedit.machineFrame.trans hframe
            change (b.turned s []).axes.get .x = _ at hx
            change (b.turned s []).axes.get .y = _ at hy
            rw [hanchors, if_pos rfl, ← hend]
            simp [Block.targetFrom, Position.xy, axisTarget, hx, hy, hedit.absolute, habsolute, hframe']
        | false =>
            have hanchors : b.anchorsPlane = false := by simp [anchorsPlane, habsolute]
            have hend : (b.turnedEnd s []).1 = s.ofVector ⟨b.x.getD 0, b.y.getD 0⟩ := by
              have hzero : (Scalar.ofNat 0 : α) = 0 := Nat.cast_zero
              rw [turnedEnd, if_neg (by simp [habsolute]), ← hzero]
              rfl
            rw [targetFrom_xy_of_relative _ _ (hedit.absolute.trans habsolute), hx, hy, hplace,
              targetFrom_xy_of_relative _ _ habsolute, Option.getD_some, Option.getD_some, hend, hp, hanchors]
            exact (s.about_add _ _ _).symm
      · rw [hplace]
        change (b.turned s []).axes.get .z = b.axes.get .z at hz'
        simp only [Block.targetFrom, axisTarget, hz', hedit.absolute, hedit.machineFrame, hz]

omit [IsStrictOrderedRing α] in
/-- The arc of a turned block is centred on the image of the centre. -/
theorem center_arcBetween_turned (o p q q' : Point α) :
    Option.Rel (fun a a' => a'.center = s.about o a.center) (b.arcBetween p q)
      ((b.turned s []).arcBetween (s.about o p) q') := by
  have hsome : ((b.turned s []).i.isSome || (b.turned s []).j.isSome) = (b.i.isSome || b.j.isSome) := by
    cases hoffset : b.i.isSome || b.j.isSome with
    | true => simp [b.turned_offset s hoffset]
    | false =>
        obtain ⟨hi, hj⟩ := b.turned_offset_of_not s hoffset
        rw [hi, hj, hoffset]
  refine rel_arcBetween (by rw [turned_motion]) hsome fun w w' _ _ hoffset => ?_
  obtain ⟨hi, hj⟩ := b.turned_offset s hoffset
  have hzero : (Scalar.ofNat 0 : α) = 0 := Nat.cast_zero
  rw [hi, hj, Option.getD_some, Option.getD_some, ← hzero]
  exact (s.about_add o p _).symm

end Block

/-! ### The whole path -/

omit [IsStrictOrderedRing α] in
/-- A run through turned blocks takes the tool through the images. -/
theorem Tool.pass_turned {s : Similarity α} {machine : Machine α} {t : Tool α} {bs : List (Block α)}
    (hplaced : (pass (step machine) t bs).2 = bs) (hframe : ∀ b ∈ bs, b.machineFrame = false) {n : ℕ}
    {b b' : Block α} (hb : bs[n]? = some b)
    (hb' : (pass (step machine) t (bs.map (Block.turned s []))).2[n]? = some b') :
    b'.place.target.xy = s.about (s.center t.position.xy (bs.take (n + 1))) b.place.target.xy ∧
      b'.place.target.z = b.place.target.z ∧
      Option.Rel (fun a a' => a'.center = s.about (s.center t.position.xy (bs.take n)) a.center) b.place.arc
        b'.place.arc := by
  have hturned : List.Forall₂ (fun b b' => b.machineFrame = false ∧ b' = b.turned s []) bs
      (bs.map (Block.turned s [])) := by
    rw [List.forall₂_map_right_iff, List.forall₂_same]
    exact fun b hb => ⟨hframe b hb, rfl⟩
  rw [List.take_succ_of_getElem? hb]
  rw [← hplaced] at hb
  have hsteps := getElem?_pass_simulation
    (I := fun before t₁ t₂ => t₂.position.xy = s.about (s.center t.position.xy before) t₁.position.xy ∧
      t₂.position.z = t₁.position.z)
    (Q := fun before b b' =>
      b'.place.target.xy = s.about (s.center t.position.xy (before ++ [b])) b.place.target.xy ∧
      b'.place.target.z = b.place.target.z ∧
      Option.Rel (fun a a' => a'.center = s.about (s.center t.position.xy before) a.center) b.place.arc
        b'.place.arc)
    ?_ [] ⟨(s.about_self _).symm, rfl⟩ (by rwa [hplaced]) hb hb'
  · rwa [hplaced, List.nil_append] at hsteps
  rintro before t₁ t₂ a _ ⟨hxy, hz⟩ ⟨hinWork, rfl⟩
  have hplace : (t₁.step machine a).2.place.target = (t₁.step machine a).2.targetFrom machine t₁.position := by
    rw [step_target, targetFrom_step]
  obtain ⟨htarget, hheight⟩ := Block.targetFrom_turned s machine hinWork hplace hxy hz
  have harc := (t₁.step machine a).2.center_arcBetween_turned s (s.center t.position.xy before) t₁.position.xy
    (a.targetFrom machine t₁.position).xy
    (((t₁.step machine a).2.turned s []).targetFrom machine t₂.position).xy
  rw [← hxy, arcBetween_step] at harc
  refine ⟨⟨?_, ?_⟩, ?_, ?_, ?_⟩
  · rw [step_position, step_position, htarget, step_target]
  · rw [step_position, step_position, hheight, step_target]
  · rw [step_target, htarget]
  · rw [step_target, hheight]
  · rwa [step_arc, step_arc]

omit [IsStrictOrderedRing α] in
/-- A program without calls that is turned and scaled takes the tool along the image of its path. From the
first absolute word in the plane on, the image is the one about the pivot; before it, displacements from the
place where the tool starts are turned and scaled. Heights stay. -/
theorem Program.turns_apply (text : String) (settings : Settings α) (machine : Machine α) (s : Similarity α) :
    let p := read text settings machine
    let q := (Edit.apply (.turn s) p settings machine).1
    let cos := Scalar.cos (Scalar.toRadians s.degrees)
    let sin := Scalar.sin (Scalar.toRadians s.degrees)
    let image (v : Point α) : Point α := ⟨s.scale * (cos * v.x - sin * v.y), s.scale * (sin * v.x + cos * v.y)⟩
    let start := machine.workPosition.xy
    let anchored (n : ℕ) : Bool := (p.executed.take n).any fun b => b.absolute && (b.x.isSome || b.y.isSome)
    (∀ b ∈ p.lines, b.isEditable = true) → (∀ b ∈ p.lines, b.call = none) →
      q.executed.length = p.executed.length ∧
      ∀ n b b', p.executed[n]? = some b → q.executed[n]? = some b' →
        (anchored (n + 1) = true → b'.place.target.xy = s.pivot + image (b.place.target.xy - s.pivot)) ∧
        (anchored (n + 1) = false → b'.place.target.xy - start = image (b.place.target.xy - start)) ∧
        b'.place.target.z = b.place.target.z ∧
        (anchored n = true → Option.Rel (fun a a' => a'.center = s.pivot + image (a.center - s.pivot)) b.place.arc
          b'.place.arc) := by
  intro p q cos sin image start anchored heditable hcalls
  have hstraight : p.IsStraight := isStraight_ofLines (codes_of_call_eq_none hcalls) machine
  have hplaced : (pass (Tool.step machine) (.atStart machine) p.executed).2 = p.executed :=
    pass_executed_ofLines (Text.lines text) settings machine
  have hexecuted : q.executed =
      (pass (Tool.step machine) (.atStart machine) (p.executed.map (Block.turned s []))).2 := by
    by_cases hempty : p.isEmpty = true
    · have hnil : p.executed = [] := by
        rw [executed, List.isEmpty_iff.mp hempty]
        rfl
      simp only [q, Edit.apply_of_isEmpty _ hempty, hnil]
      rfl
    · have hedit : ∀ surface : Surface α, Edit.turn s ≠ .follow surface := by simp
      simp only [q, Edit.apply_eq hedit (by simpa using hempty)]
      change ((p.turn s).place machine).executed = _
      rw [((hstraight.turn s).place machine).executed_eq, (hstraight.turn s).lines_place,
        hstraight.lines_turn s heditable, hstraight.executed_eq]
  have habout : ∀ o v : Point α, s.about o v = o + image (v - o) := by
    intro o v
    rw [Similarity.about, s.ofVector_eq]
    ext <;> exact add_comm _ _
  refine ⟨by simp [hexecuted], ?_⟩
  intro n b b' hb hb'
  rw [hexecuted] at hb'
  obtain ⟨htarget, hheight, harc⟩ := Tool.pass_turned hplaced (machineFrame_executed heditable) hb hb'
  have hcenter : ∀ k, s.center (Tool.atStart machine).position.xy (p.executed.take k) =
      if anchored k = true then s.pivot else start := fun _ => rfl
  rw [hcenter, habout] at htarget
  simp only [hcenter, habout] at harc
  refine ⟨?_, ?_, hheight, ?_⟩
  · intro hanchored
    rwa [if_pos hanchored] at htarget
  · intro hanchored
    rw [if_neg (by simp [hanchored])] at htarget
    rw [htarget]
    ext
    · exact add_sub_cancel_left _ _
    · exact add_sub_cancel_left _ _
  · intro hanchored
    rwa [if_pos hanchored] at harc

/-- A quarter turn about a corner. The arc comes after an absolute line that only has an X. -/
theorem Program.turns_quarter :
    let _ := PlaneFunctions.axial
    let machine : Machine ℚ := .default
    let s : Similarity ℚ := ⟨90, 2, ⟨1, 1⟩⟩
    let p := read "G91 G1 X1\nG90 X10\nG2 X14 I2\nG91 Y3\nM30\n" .default machine
    let q := (Edit.apply (.turn s) p .default machine).1
    let image (v : Point ℚ) : Point ℚ := ⟨2 * (0 * v.x - 1 * v.y), 2 * (1 * v.x + 0 * v.y)⟩
    ((∀ b ∈ p.lines, b.isEditable = true) ∧ ∀ b ∈ p.lines, b.call = none) ∧
    ∃ b b', p.executed[2]? = some b ∧ q.executed[2]? = some b' ∧ b.place.arc.isSome = true ∧
      b.place.target.xy = ⟨14, 0⟩ ∧ b'.place.target.xy = ⟨3, 27⟩ ∧
      Option.Rel (fun a a' => a'.center = s.pivot + image (a.center - s.pivot)) b.place.arc b'.place.arc := by
  intro _ machine s p q image
  have heditable : ∀ b ∈ p.lines, b.isEditable = true := by decide +kernel
  have hcalls : ∀ b ∈ p.lines, b.call = none := by decide +kernel
  obtain ⟨-, hsteps⟩ := turns_apply _ .default machine s heditable hcalls
  have hexecuted : ∃ b, p.executed[2]? = some b := by
    rw [← Option.isSome_iff_exists]
    decide +kernel
  have hexecuted' : ∃ b, q.executed[2]? = some b := by
    rw [← Option.isSome_iff_exists]
    decide +kernel
  obtain ⟨b, hb⟩ := hexecuted
  obtain ⟨b', hb'⟩ := hexecuted'
  have harc : b.place.arc.isSome = true := by
    have harc : (p.executed[2]?.bind (·.place.arc)).isSome = true := by decide +kernel
    rwa [hb] at harc
  have htarget : b.place.target.xy = ⟨14, 0⟩ := by
    have htarget : p.executed[2]?.map (·.place.target.xy) = some ⟨14, 0⟩ := by decide +kernel
    rwa [hb, Option.map_some, Option.some_inj] at htarget
  obtain ⟨hturned, -, -, hcenter⟩ := hsteps 2 b b' hb hb'
  have hcos : (Scalar.cos (Scalar.toRadians 90) : ℚ) = 0 := by decide +kernel
  have hsin : (Scalar.sin (Scalar.toRadians 90) : ℚ) = 1 := by decide +kernel
  simp only [s, hcos, hsin] at hturned hcenter
  refine ⟨⟨heditable, hcalls⟩, b, b', hb, hb', harc, htarget, ?_, hcenter (by decide +kernel)⟩
  rw [hturned (by decide +kernel), htarget]
  decide +kernel

end PartProgram
