import PartProgram.Proofs.Program.Mapping

/-! # The path in the mirror

A mirrored program takes the tool along the mirrored path. As long as it has run no absolute word for
the mirrored coordinate, it only knows displacements, and the path is turned about the place where the
tool starts.
-/

namespace PartProgram

/-- Every copy runs in the distance mode and in the motion in which its line has been read. -/
def Program.RunsAsRead {α : Type} (p : Program α) : Prop :=
  ∀ e ∈ p.entries, ∀ c ∈ e.copies, ∀ line ∈ p.lines[c.definition]?,
    c.block.absolute = line.absolute ∧ c.block.motion = line.motion

/-! ### Copies in the mirror -/

section

variable {α : Type} [Scalar α]

namespace Program

/-- A line that has no words is not changed by a mirror. -/
theorem mirrored_of_text_empty {b : Block α} (h : b.FromText) (hm : b.modified = false) (htext : b.text = "")
    (m : MirrorAxis) (sum : α) : b.mirrored m sum = b := by
  obtain ⟨haxes, hi, hj⟩ := h.unmodified hm
  have hidle : b.isMirrored m = false := by
    cases m <;>
      simp [Block.isMirrored, Block.mirrorOffset, Block.hasCoordinates, haxes, hi, hj, htext, lineWords,
        wordsOf_empty, AxisWords.any, AxisWords.none, Axis.all]
  simp [Block.mirrored, hidle]

/-- Copies that run as their lines have been read are mirrored with their lines. -/
theorem running_mirror {lines : List String} {settings : Settings α} {machine : Machine α}
    (heditable : ∀ b ∈ (ofLines lines settings machine).lines, b.isEditable = true)
    (hcopies : (ofLines lines settings machine).RunsAsRead) (m : MirrorAxis) :
    let p := ofLines lines settings machine
    (p.mirror m).running = p.executed.map (Block.mirrored m (m.sum p.extent)) := by
  intro p
  have hmodified : ∀ b ∈ p.lines, b.modified = false := modified_place (modified_asRead lines settings) machine
  have hlines : (p.mirror m).lines = p.lines.map (Block.mirrored m (m.sum p.extent)) := by
    simp only [mirror, editLines, mapLines, Program.lines, List.map_map]
    apply List.map_congr_left
    intro e he
    simp only [Function.comp_apply, heditable e.line (List.mem_map_of_mem he), if_true]
  have hcopy : ∀ e ∈ p.entries, ∀ c ∈ e.copies,
      (c.follow (p.mirror m).lines.toArray).block = c.block.mirrored m (m.sum p.extent) := by
    intro e he c hc
    obtain ⟨hfrom, hc_modified, htext⟩ := words_of_mem_copies he hc
    rw [Copy.follow, hlines, List.getElem?_toArray, List.getElem?_map]
    cases hline : p.lines[c.definition]? with
    | none =>
        have hempty : c.block.text = "" := by
          have hlength : lines[c.definition]? = none := by
            rw [← texts_ofLines lines settings machine, List.getElem?_map, hline]
            rfl
          rw [htext, List.getD_eq_getElem?_getD, hlength]
          rfl
        exact (mirrored_of_text_empty hfrom hc_modified hempty m _).symm
    | some line =>
        obtain ⟨habsolute, hmotion⟩ := hcopies e he c hc line hline
        have hmem : line ∈ p.lines := List.mem_of_getElem? hline
        have hsame : line.text = c.block.text := by
          have hget : lines[c.definition]? = some line.text := by
            rw [← texts_ofLines lines settings machine, List.getElem?_map, hline]
            rfl
          rw [htext, List.getD_eq_getElem?_getD, hget]
          rfl
        obtain ⟨haxes, hi, hj⟩ := hfrom.unmodified hc_modified
        obtain ⟨haxes', hi', hj'⟩ := (fromText_ofLines lines settings machine line hmem).unmodified
          (hmodified line hmem)
        rw [hsame] at haxes' hi' hj'
        have hmirrored : line.isMirrored m = c.block.isMirrored m := by
          simp only [Block.isMirrored, Block.mirrorOffset, Block.hasCoordinates, haxes, haxes', hi, hi', hj, hj',
            hmotion]
        by_cases hc_mirrored : c.block.isMirrored m = true
        · simp only [Option.map_some, Block.mirrored, hmirrored, hc_mirrored, if_true, haxes, haxes', hi, hi', hj,
            hj', habsolute, hmotion]
          cases line.motion <;> rfl
        · simp only [Option.map_some, Block.mirrored, hmirrored, hc_mirrored, Bool.false_eq_true, if_false,
            hmodified line hmem]
  have hentries : ∀ e ∈ p.entries,
      Block.mirrored m (m.sum p.extent) e.line ::
          e.copies.map (fun c => (c.follow (p.mirror m).lines.toArray).block) =
        e.executed.map (Block.mirrored m (m.sum p.extent)) := by
    intro e he
    simp only [Entry.executed, List.map_cons, List.map_map]
    congr 1
    exact List.map_congr_left (hcopy e he)
  rw [running, executed, List.map_flatMap, ← List.flatMap_congr hentries]
  simp only [mirror, editLines, mapLines, List.flatMap_map]
  apply List.flatMap_congr
  intro e he
  simp only [heditable e.line (List.mem_map_of_mem he), if_true]

end Program

end

/-! ### Steps in the mirror -/

section

variable {α : Type} [Field α] [LinearOrder α] [IsStrictOrderedRing α] [FloorRing α] [PlaneFunctions α]

omit [IsStrictOrderedRing α] in
/-- A block takes the mirrored coordinate from its image to its image. An absolute word moves the
mirror to its own place. -/
theorem Block.axisTarget_mirrored (m : MirrorAxis) (sum c previous offset : α) {b : Block α}
    (hframe : b.machineFrame = false) :
    (b.mirrored m sum).axisTarget m.axis (c - previous) offset =
      (if b.anchors m then sum else c) - b.axisTarget m.axis previous offset := by
  cases hword : b.axes.get m.axis with
  | none =>
      have hword' : (b.mirrored m sum).axes.get m.axis = none := by
        rw [mirrored]
        split <;> simp [hword]
      simp [axisTarget, anchors, hword, hword']
  | some v =>
      have hmirrored : b.isMirrored m = true := by simp [isMirrored, hword]
      cases habsolute : b.absolute <;>
        simp [mirrored, hmirrored, axisTarget, anchors, hword, habsolute, hframe]
      ring

omit [IsStrictOrderedRing α] in
/-- The other coordinates are left alone. -/
theorem Block.axisTarget_mirrored_of_ne (m : MirrorAxis) (sum previous offset : α) (b : Block α) {axis : Axis}
    (h : axis ≠ m.axis) :
    (b.mirrored m sum).axisTarget axis previous offset = b.axisTarget axis previous offset := by
  rw [mirrored]
  split
  · simp only [axisTarget, AxisWords.get_set_of_ne _ _ h]
  · rfl

/-- The second position is the first one in the mirror that takes a coordinate to `sum` less it. -/
structure Position.Mirrors (m : MirrorAxis) (sum : α) (p p' : Position α) : Prop where
  along : m.along p'.xy = sum - m.along p.xy
  across : m.across p'.xy = m.across p.xy
  z : p'.z = p.z

omit [IsStrictOrderedRing α] in
theorem Position.Mirrors.targetFrom {m : MirrorAxis} {c : α} {p p' : Position α} (h : p.Mirrors m c p')
    (sum : α) (machine : Machine α) {b : Block α} (hframe : b.machineFrame = false) :
    (b.targetFrom machine p).Mirrors m (if b.anchors m then sum else c)
      ((b.mirrored m sum).targetFrom machine p') := by
  obtain ⟨halong, hacross, hz⟩ := h
  obtain ⟨px, py, pz⟩ := p
  obtain ⟨px', py', pz'⟩ := p'
  have hmirrored := fun offset => Block.axisTarget_mirrored m sum c (m.along ⟨px, py⟩) offset hframe
  have hother : ∀ {axis : Axis}, axis ≠ m.axis → ∀ previous offset : α,
      (b.mirrored m sum).axisTarget axis previous offset = b.axisTarget axis previous offset :=
    fun haxis previous offset => Block.axisTarget_mirrored_of_ne m sum previous offset b haxis
  cases m with
  | x =>
      obtain ⟨rfl, rfl, rfl⟩ : px' = c - px ∧ py' = py ∧ pz' = pz := ⟨halong, hacross, hz⟩
      exact ⟨hmirrored _, hother (by decide) py' _, hother (by decide) pz' _⟩
  | y =>
      obtain ⟨rfl, rfl, rfl⟩ : py' = c - py ∧ px' = px ∧ pz' = pz := ⟨halong, hacross, hz⟩
      exact ⟨hmirrored _, hother (by decide) px' _, hother (by decide) pz' _⟩

/-! ### Arcs in the mirror -/

namespace Arc

/-- The second arc is the first one in the mirror: its centre is reflected, it has the same radius, and
it turns the other way. -/
structure Mirrors (m : MirrorAxis) (sum : α) (a a' : Arc α) : Prop where
  along : m.along a'.center = sum - m.along a.center
  across : m.across a'.center = m.across a.center
  radius : a'.radius = a.radius
  winding : a'.isClockwise = !a.isClockwise

/-- The length of a vector does not depend on its signs. -/
theorem mirrors_ofOffsets
    (hhypot : ∀ x y : α, Scalar.hypot (-x) y = Scalar.hypot x y ∧ Scalar.hypot x (-y) = Scalar.hypot x y)
    (m : MirrorAxis) {c : α} {p p' : Point α} (halong : m.along p' = c - m.along p)
    (hacross : m.across p' = m.across p) (q q' : Point α) (i j : α) (w : Winding) :
    (ofOffsets p q i j w).Mirrors m c
      (ofOffsets p' q' (if m = .x then -i else i) (if m = .y then -j else j) w.flip) := by
  obtain ⟨px, py⟩ := p
  obtain ⟨px', py'⟩ := p'
  have hwinding : ∀ i' j', (ofOffsets ⟨px', py'⟩ q' i' j' w.flip).isClockwise =
      !(ofOffsets ⟨px, py⟩ q i j w).isClockwise := by
    intro i' j'
    rw [isClockwise_ofOffsets, isClockwise_ofOffsets]
    cases w <;> rfl
  cases m with
  | x =>
      obtain ⟨rfl, rfl⟩ : px' = c - px ∧ py' = py := ⟨halong, hacross⟩
      refine ⟨?_, rfl, ?_, hwinding _ _⟩
      · change c - px + -i = c - (px + i)
        ring
      · simp [ofOffsets, (hhypot i j).1]
  | y =>
      obtain ⟨rfl, rfl⟩ : py' = c - py ∧ px' = px := ⟨halong, hacross⟩
      refine ⟨?_, rfl, ?_, hwinding _ _⟩
      · change c - py + -j = c - (py + j)
        ring
      · simp [ofOffsets, (hhypot i j).2]

end Arc

/-- The arc of a mirrored block runs between the images of the ends, and there is one if and only if the
block has one. -/
theorem Block.arcBetween_mirrored
    (hhypot : ∀ x y : α, Scalar.hypot (-x) y = Scalar.hypot x y ∧ Scalar.hypot x (-y) = Scalar.hypot x y)
    (m : MirrorAxis) (sum c : α) (b : Block α) {p p' : Point α} (halong : m.along p' = c - m.along p)
    (hacross : m.across p' = m.across p) (q q' : Point α) :
    Option.Rel (Arc.Mirrors m c) (b.arcBetween p q) ((b.mirrored m sum).arcBetween p' q') := by
  by_cases hoffset : b.i.isSome || b.j.isSome
  · cases hwinding : b.motion.winding? with
    | none =>
        have hmotion : (b.mirrored m sum).motion.winding? = none := by
          rw [mirrored]
          split
          · cases hb : b.motion <;> simp_all [Motion.mirrored, Motion.winding?]
          · exact hwinding
        simp [arcBetween, hwinding, hmotion]
    | some w =>
        have harc : b.motion = .arc w := by
          cases hb : b.motion <;> simp_all [Motion.winding?]
        have hmirrored : b.isMirrored m = true := by
          simp [isMirrored, harc, Motion.isArc, Motion.winding?, hasCoordinates, Bool.or_assoc, hoffset]
        have hi : (if m = .x then b.i.map (- ·) else b.i).getD 0 = if m = .x then -b.i.getD 0 else b.i.getD 0 := by
          cases b.i <;> cases m <;> simp
        have hj : (if m = .y then b.j.map (- ·) else b.j).getD 0 = if m = .y then -b.j.getD 0 else b.j.getD 0 := by
          cases b.j <;> cases m <;> simp
        have hoffset' : ((b.mirrored m sum).i.isSome || (b.mirrored m sum).j.isSome) = true := by
          simp only [mirrored, hmirrored, if_true]
          cases m <;> simpa using hoffset
        have hmotion : (b.mirrored m sum).motion.winding? = some w.flip := by
          simp [mirrored, hmirrored, harc, Motion.mirrored, Motion.winding?]
        rw [arcBetween_eq hwinding hoffset, arcBetween_eq hmotion hoffset']
        simp only [mirrored, hmirrored, if_true, hi, hj]
        exact .some (Arc.mirrors_ofOffsets hhypot m halong hacross q q' _ _ w)
  · have hmirrored : ¬((b.mirrored m sum).i.isSome || (b.mirrored m sum).j.isSome) := by
      rw [mirrored]
      split
      · cases m <;> simpa using hoffset
      · exact hoffset
    simp only [arcBetween, hoffset, hmirrored, Bool.false_eq_true, if_false]
    cases b.motion.winding? <;> cases (b.mirrored m sum).motion.winding? <;> exact .none

/-! ### The whole path -/

/-- Mirrored blocks take the tool along the mirrored path. The sum of the mirror counts from the first
absolute word on. -/
theorem pass_mirrored
    (hhypot : ∀ x y : α, Scalar.hypot (-x) y = Scalar.hypot x y ∧ Scalar.hypot x (-y) = Scalar.hypot x y)
    (m : MirrorAxis) (sum : α) (machine : Machine α) {c : α} {t t' : Tool α}
    (h : t.position.Mirrors m c t'.position) {bs : List (Block α)} (hframe : ∀ b ∈ bs, b.machineFrame = false)
    (n : ℕ) {b b' : Block α} (hb : (pass (Tool.step machine) t bs).2[n]? = some b)
    (hb' : (pass (Tool.step machine) t' (bs.map (Block.mirrored m sum))).2[n]? = some b') :
    b.place.target.Mirrors m (if (bs.take (n + 1)).any (Block.anchors m) then sum else c) b'.place.target ∧
      Option.Rel (Arc.Mirrors m (if (bs.take n).any (Block.anchors m) then sum else c)) b.place.arc
        b'.place.arc := by
  induction bs generalizing n c t t' with
  | nil => simp at hb
  | cons a bs ih =>
      have hstep := h.targetFrom sum machine (hframe a (by simp))
      rw [pass_cons] at hb
      rw [List.map_cons, pass_cons] at hb'
      cases n with
      | zero =>
          obtain rfl : (t.step machine a).2 = b := by simpa using hb
          obtain rfl : (t'.step machine (a.mirrored m sum)).2 = b' := by simpa using hb'
          simp only [Tool.step_target, Tool.step_arc]
          exact ⟨by simpa using hstep, Block.arcBetween_mirrored hhypot m sum c a h.along h.across _ _⟩
      | succ n =>
          rw [← Tool.step_position, ← Tool.step_position] at hstep
          have htail := ih hstep (fun b hb => hframe b (by simp [hb])) n (by simpa using hb) (by simpa using hb')
          cases hanchors : a.anchors m <;> simpa [hanchors] using htail

/-- A mirrored program takes the tool along the mirrored path. From the first absolute word for the
coordinate on, positions are reflected about the middle of the extent that the program had; before it,
displacements from the place where the tool starts change their sign. Arcs turn the other way about
their reflected centres. -/
theorem Program.mirrors_apply (text : String) (settings : Settings α) (machine : Machine α) (m : MirrorAxis)
    (hhypot : ∀ x y : α, Scalar.hypot (-x) y = Scalar.hypot x y ∧ Scalar.hypot x (-y) = Scalar.hypot x y) :
    let p := read text settings machine
    let q := (Edit.apply (.mirror m) p settings machine).1
    let sum := m.sum p.extent
    let start := m.along machine.workPosition.xy
    let anchored (n : ℕ) : Bool := (p.executed.take n).any (Block.anchors m)
    (∀ b ∈ p.lines, b.isEditable = true) → p.RunsAsRead →
      q.executed.length = p.executed.length ∧
      ∀ n b b', p.executed[n]? = some b → q.executed[n]? = some b' →
        (anchored (n + 1) = true → m.along b'.place.target.xy = sum - m.along b.place.target.xy) ∧
        (anchored (n + 1) = false →
          m.along b'.place.target.xy - start = -(m.along b.place.target.xy - start)) ∧
        m.across b'.place.target.xy = m.across b.place.target.xy ∧
        b'.place.target.z = b.place.target.z ∧
        (anchored n = true → Option.Rel (Arc.Mirrors m sum) b.place.arc b'.place.arc) := by
  intro p q sum start anchored heditable hcopies
  have hexecuted : q.executed =
      (pass (Tool.step machine) (.atStart machine) (p.executed.map (Block.mirrored m sum))).2 := by
    by_cases hempty : p.isEmpty = true
    · have hnil : p.executed = [] := by
        rw [executed, List.isEmpty_iff.mp hempty]
        rfl
      simp only [q, Edit.apply_of_isEmpty _ hempty, hnil]
      rfl
    · have hedit : ∀ surface : Surface α, Edit.mirror m ≠ .follow surface := by simp
      simp only [q, Edit.apply_eq hedit (by simpa using hempty), executed_place_eq]
      exact congrArg (fun bs => (pass (Tool.step machine) (.atStart machine) bs).2)
        (running_mirror heditable hcopies m)
  refine ⟨by simp [hexecuted], ?_⟩
  intro n b b' hb hb'
  have hstart : (Tool.atStart machine).position.Mirrors m (start + start) (Tool.atStart machine).position :=
    ⟨by simp [Tool.atStart, start], rfl, rfl⟩
  have hplaced : (pass (Tool.step machine) (.atStart machine) p.executed).2 = p.executed :=
    pass_executed_ofLines (Text.lines text) settings machine
  have hframe : ∀ b ∈ p.executed, b.machineFrame = false := machineFrame_executed heditable
  rw [← hplaced] at hb
  rw [hexecuted] at hb'
  obtain ⟨htarget, harc⟩ := pass_mirrored hhypot m sum machine hstart hframe n hb hb'
  refine ⟨?_, ?_, htarget.across, htarget.z, ?_⟩
  · intro hanchored
    rw [htarget.along, if_pos hanchored]
  · intro hanchored
    have hnot : ¬anchored (n + 1) = true := by simp [hanchored]
    rw [htarget.along, if_neg hnot]
    ring
  · intro hanchored
    rwa [if_pos hanchored] at harc

/-- An arc that a body runs after the first absolute word. -/
theorem Program.mirrors_copied_arc :
    let _ := PlaneFunctions.axial
    let machine : Machine ℚ := .default
    let p := read "G91 G1 X1\nG90 X10 Y0\nM98 P1\nM30\nO1\nG2 X14 I2\nM99\n" .default machine
    let q := (Edit.apply (.mirror .x) p .default machine).1
    ((∀ x y : ℚ, Scalar.hypot (-x) y = Scalar.hypot x y ∧ Scalar.hypot x (-y) = Scalar.hypot x y) ∧
      (∀ b ∈ p.lines, b.isEditable = true) ∧ p.RunsAsRead) ∧
    ∃ b b', p.executed[3]? = some b ∧ q.executed[3]? = some b' ∧ b.place.arc.isSome = true ∧
      MirrorAxis.x.along b'.place.target.xy = 14 - MirrorAxis.x.along b.place.target.xy ∧
      Option.Rel (Arc.Mirrors .x 14) b.place.arc b'.place.arc := by
  intro _ machine p q
  have hhypot : ∀ x y : ℚ, Scalar.hypot (-x) y = Scalar.hypot x y ∧ Scalar.hypot x (-y) = Scalar.hypot x y := by
    intro x y
    change |-x| + |y| = |x| + |y| ∧ |x| + |-y| = |x| + |y|
    simp
  have heditable : ∀ b ∈ p.lines, b.isEditable = true := by decide +kernel
  have hcopies : p.RunsAsRead := by
    unfold RunsAsRead
    decide +kernel
  obtain ⟨-, hsteps⟩ := mirrors_apply _ .default machine .x hhypot heditable hcopies
  have hexecuted : ∃ b, p.executed[3]? = some b := by
    rw [← Option.isSome_iff_exists]
    decide +kernel
  have hexecuted' : ∃ b, q.executed[3]? = some b := by
    rw [← Option.isSome_iff_exists]
    decide +kernel
  obtain ⟨b, hb⟩ := hexecuted
  obtain ⟨b', hb'⟩ := hexecuted'
  have harc : b.place.arc.isSome = true := by
    have harc : (p.executed[3]?.bind (·.place.arc)).isSome = true := by decide +kernel
    rwa [hb] at harc
  have hsum : MirrorAxis.x.sum p.extent = 14 := by decide +kernel
  obtain ⟨halong, -, -, -, hmirrors⟩ := hsteps 3 b b' hb hb'
  rw [← hsum]
  exact ⟨⟨hhypot, heditable, hcopies⟩, b, b', hb, hb', harc, halong (by decide +kernel),
    hmirrors (by decide +kernel)⟩

end

end PartProgram
