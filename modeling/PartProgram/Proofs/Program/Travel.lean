import PartProgram.Proofs.Program.Running

/-! # Travelling along texts

Where a step takes the tool depends on the texts of the lines that have run, and on nothing else of the
program. Two programs whose steps correspond in groups of lines can therefore be compared text by text.
-/

namespace PartProgram

variable {α : Type} [Scalar α]

/-- The block as far as it moves the tool: without its number and what its place in the program adds. -/
def Block.moving (b : Block α) : Block α :=
  { b.asRead with number := 0, place := { b.place with figure := none } }

/-- Reads a line and moves the tool along it. -/
def travel (machine : Machine α) (s : Modal α × Position α) (line : String) :
    (Modal α × Position α) × Block α :=
  let (m, b) := Block.read 0 line s.1
  let place := b.placementFrom machine s.2
  ((m, place.target), { b with place })

section

variable (machine : Machine α) (s : Modal α × Position α) (line : String)

@[simp]
theorem travel_modal : (travel machine s line).1.1 = s.1.after line := Block.read_fst 0 line s.1

@[simp]
theorem travel_position : (travel machine s line).1.2 = (travel machine s line).2.place.target := rfl

/-- What a line along which the tool travels shows of its words and of the modes before it. -/
theorem travel_snd :
    let b := (travel machine s line).2
    b.motion = (s.1.after line).motion ∧ b.absolute = (s.1.after line).absolute ∧
      b.axes = (lineWords line).axes ∧ b.i = (lineWords line).i ∧ b.j = (lineWords line).j ∧
      b.machineFrame = (lineWords line : LineWords α).machineFrame ∧
      b.place = b.placementFrom machine s.2 := by
  refine ⟨?_, ?_, ?_, ?_, ?_, ?_, rfl⟩ <;> simp [travel, Block.read_snd, lineWords]

end

section

variable {machine : Machine α} {s : Modal α × Position α} {b : Block α}
  (h : (travel machine s b.text).2 = b.moving)

include h

/-- A tool that is moved as the block moves it has the distance mode of the block. -/
theorem absolute_of_travel_eq : (s.1.after b.text).absolute = b.absolute := by
  rw [← (travel_snd machine s b.text).2.1, h]
  rfl

theorem target_of_travel_eq : (travel machine s b.text).1.2 = b.place.target := by
  rw [travel_position, h]
  rfl

end

/-! ### One axis at a time -/

/-- An axis along which the place of the tool is known. -/
inductive PathAxis where
  | x | y | z
  deriving DecidableEq, Repr

def PathAxis.axis : PathAxis → Axis
  | x => .x
  | y => .y
  | z => .z

omit [Scalar α] in
/-- The coordinate of a position on one axis. -/
def Position.on (p : Position α) : PathAxis → α
  | .x => p.x
  | .y => p.y
  | .z => p.z

omit [Scalar α] in
theorem Position.ext_on {p q : Position α} (h : ∀ d, p.on d = q.on d) : p = q := by
  obtain ⟨px, py, pz⟩ := p
  obtain ⟨qx, qy, qz⟩ := q
  obtain rfl : px = qx := h .x
  obtain rfl : py = qy := h .y
  obtain rfl : pz = qz := h .z
  rfl

/-- The coordinate that a word leads to from `v`. -/
def reach (absolute : Bool) (word : Option α) (v : α) : α :=
  word.elim v fun w => if absolute then w else v + w

theorem Block.targetFrom_on {b : Block α} (hframe : b.machineFrame = false) (machine : Machine α)
    (p : Position α) (d : PathAxis) :
    (b.targetFrom machine p).on d = reach b.absolute (b.axes.get d.axis) (p.on d) := by
  have haxis : ∀ (axis : Axis) (v offset : α),
      b.axisTarget axis v offset = reach b.absolute (b.axes.get axis) v := by
    intro axis v offset
    rw [axisTarget, reach, hframe]
    cases b.axes.get axis <;> rfl
  cases d <;> exact haxis _ _ _

/-- A block in work coordinates that runs is placed where its words lead to. -/
theorem Program.target_on_of_mem_executed {lines : List String} {settings : Settings α} {machine : Machine α}
    {b : Block α} (hb : b ∈ (ofLines lines settings machine).executed) (hframe : b.machineFrame = false)
    (d : PathAxis) :
    b.place.target.on d = reach b.absolute (b.axes.get d.axis) (b.place.origin.on d) := by
  obtain ⟨t, b₀, rfl⟩ := exists_step_of_mem_executed hb
  have hwords := (Tool.unplaced_step machine t b₀).symm
  have habsolute : (t.step machine b₀).2.absolute = b₀.absolute := (congrArg Block.absolute hwords).symm
  have haxes : (t.step machine b₀).2.axes = b₀.axes := (congrArg Block.axes hwords).symm
  have hmachine : (t.step machine b₀).2.machineFrame = b₀.machineFrame :=
    (congrArg Block.machineFrame hwords).symm
  have horigin : (t.step machine b₀).2.place.origin = t.position := by
    simp only [Tool.step]
    split <;> rfl
  rw [Tool.step_target, habsolute, haxes, horigin]
  exact Block.targetFrom_on (hmachine.symm.trans hframe) machine t.position d

section

variable {line : String} (hframe : (lineWords line : LineWords α).machineFrame = false) (machine : Machine α)
  (s : Modal α × Position α)

include hframe in
/-- A line in work coordinates leads from coordinate to coordinate. -/
theorem travel_on (d : PathAxis) :
    (travel machine s line).1.2.on d =
      reach (s.1.after line).absolute ((lineWords line).axes.get d.axis) (s.2.on d) := by
  obtain ⟨-, habsolute, haxes, -, -, hmachine, hplace⟩ := travel_snd machine s line
  rw [travel_position, hplace, ← habsolute, ← haxes]
  exact Block.targetFrom_on (hmachine.trans hframe) machine s.2 d

/-- A coordinate without a word stays. -/
theorem travel_on_of_eq_none {d : PathAxis} (hword : (lineWords line : LineWords α).axes.get d.axis = none) :
    (travel machine s line).1.2.on d = s.2.on d := by
  obtain ⟨-, -, haxes, -, -, -, hplace⟩ := travel_snd machine s line
  rw [travel_position, hplace, Block.placementFrom]
  cases d <;> simp only [PathAxis.axis] at hword <;>
    simp only [Block.targetFrom, Position.on, Block.axisTarget, haxes, hword]

/-- A line runs an arc if one has been selected and the line has an offset. -/
theorem isSome_travel_arc :
    (travel machine s line).2.place.arc.isSome = ((s.1.after line).motion.isArc &&
      ((lineWords line : LineWords α).i.isSome || (lineWords line : LineWords α).j.isSome)) := by
  obtain ⟨hmotion, -, -, hi, hj, -, hplace⟩ := travel_snd machine s line
  rw [hplace, Block.placementFrom, Block.isSome_arcBetween, hmotion, hi, hj]

end

/-- Travelling along lines ends where the last of them leads. -/
theorem exists_travel_append (machine : Machine α) {lines : List String} (h : lines ≠ [])
    (s : Modal α × Position α) :
    ∃ steps b, (pass (travel machine) s lines).2 = steps ++ [b] ∧
      b.place.target = (pass (travel machine) s lines).1.2 := by
  obtain ⟨lines, line, rfl⟩ := (List.eq_nil_or_concat' lines).resolve_left h
  rw [pass_append, pass_cons, pass_nil]
  exact ⟨_, _, rfl, (travel_position machine _ line).symm⟩

/-! ### Whole programs -/

/-- Steps that have been read and placed one after the other move the tool as their texts do. -/
theorem pass_travel {source : Source} {machine : Machine α} {bs : List (Block α)} {ns : List ℕ} {m : Modal α}
    {t : Tool α} (hread : (pass source.readAt m ns).2 = bs.map Block.asRead)
    (hplaced : (pass (Tool.step machine) t bs).2 = bs) :
    (pass (travel machine) (m, t.position) (bs.map (·.text))).2 = bs.map Block.moving := by
  induction bs generalizing ns m t with
  | nil => rfl
  | cons b bs ih =>
      cases ns with
      | nil => simp at hread
      | cons n ns =>
          rw [pass_cons, List.map_cons] at hread
          rw [pass_cons] at hplaced
          obtain ⟨hb, hrest⟩ := List.cons.inj hread
          obtain ⟨hstep, htail⟩ := List.cons.inj hplaced
          have htext : b.text = source.lines.getD n "" := (Block.of_asRead_eq hb.symm).2.2
          have hafter : (source.readAt m n).1 = m.after b.text := by
            rw [Source.readAt, Block.read_fst, htext]
          have hblock : (travel machine (m, t.position) b.text).2 = b.moving := by
            have hplace : { b.place with figure := none } = b.placementFrom machine t.position := by
              rw [← hstep]
              simp only [Tool.step]
              split <;> rfl
            have hasRead : b.asRead = (Block.read n b.text m).2 := by rw [← hb, Source.readAt, htext]
            have hzero : (Block.read 0 b.text m).2 = { b.asRead with number := 0 } := by
              rw [hasRead, Block.read_snd, Block.read_snd]
              rfl
            simp only [travel, Block.moving, hplace, hzero]
            rfl
          have hposition : (travel machine (m, t.position) b.text).1.2 = (t.step machine b).1.position := by
            rw [target_of_travel_eq hblock, Tool.step_position, ← Tool.step_target, hstep]
          have hstate : (travel machine (m, t.position) b.text).1 =
              ((source.readAt m n).1, (t.step machine b).1.position) :=
            Prod.ext (by rw [travel_modal, hafter]) hposition
          rw [List.map_cons, List.map_cons, pass_cons, hblock, hstate]
          exact congrArg _ (ih hrest htail)

/-- The steps of a program take the tool along their texts, from the place where it starts. -/
theorem Program.pass_travel_executed (lines : List String) (settings : Settings α) (machine : Machine α) :
    let p := ofLines lines settings machine
    (pass (travel machine) (Modal.initial, machine.workPosition) (p.executed.map (·.text))).2 =
      p.executed.map Block.moving := by
  intro p
  obtain ⟨hread, -⟩ := executed_ofLines lines settings machine
  exact PartProgram.pass_travel (t := .atStart machine) hread.symm
    (pass_executed_ofLines lines settings machine)

/-- The steps up to a place in the program, and those from there on. -/
theorem Program.pass_travel_of_executed_eq_append {lines : List String} {settings : Settings α}
    {machine : Machine α} {front back : List (Block α)}
    (h : (ofLines lines settings machine).executed = front ++ back) :
    let front' := pass (travel machine) (Modal.initial, machine.workPosition) (front.map (·.text))
    front'.2 = front.map Block.moving ∧
      (pass (travel machine) front'.1 (back.map (·.text))).2 = back.map Block.moving := by
  have hpass := pass_travel_executed lines settings machine
  simp only [h, List.map_append, pass_append] at hpass
  exact List.append_inj hpass (by rw [length_pass, List.length_map, List.length_map])

/-- Travelling along the texts of steps ends where the last step leads. -/
theorem target_of_pass_travel {machine : Machine α} {s : Modal α × Position α} {bs : List (Block α)}
    {b : Block α}
    (h : (pass (travel machine) s ((bs ++ [b]).map (·.text))).2 = (bs ++ [b]).map Block.moving) :
    (pass (travel machine) s ((bs ++ [b]).map (·.text))).1.2 = b.place.target := by
  have hne : (bs ++ [b]).map (·.text) ≠ [] := by simp
  obtain ⟨steps, b', hsteps, hlast⟩ := exists_travel_append machine hne s
  rw [h, List.map_append, List.map_singleton] at hsteps
  obtain ⟨-, hb⟩ := List.append_inj' hsteps rfl
  rw [← hlast, ← List.singleton_inj.mp hb]
  rfl

/-- Travelling along groups of lines that correspond to the steps of a run: if each group leads from
related states to related states, the whole run does. -/
theorem exists_travel_groups {machine : Machine α} {R : Modal α × Position α → Modal α × Position α → Prop}
    {T : Block α → List String → Prop} {Q : Block α → List (Block α) → Prop}
    (hstep : ∀ b group s s', T b group → R s s' → (travel machine s b.text).2 = b.moving →
      R (travel machine s b.text).1 (pass (travel machine) s' group).1 ∧
        Q b (pass (travel machine) s' group).2)
    {bs : List (Block α)} {groups : List (List String)} (h : List.Forall₂ T bs groups)
    {s s' : Modal α × Position α} (hs : R s s')
    (hbs : (pass (travel machine) s (bs.map (·.text))).2 = bs.map Block.moving) :
    R (pass (travel machine) s (bs.map (·.text))).1 (pass (travel machine) s' groups.flatten).1 ∧
      ∃ travelled, (pass (travel machine) s' groups.flatten).2 = travelled.flatten ∧
        List.Forall₂ Q bs travelled := by
  induction h generalizing s s' with
  | nil => exact ⟨hs, [], rfl, .nil⟩
  | @cons b group bs groups hb _ ih =>
      rw [List.map_cons, List.map_cons, pass_cons] at hbs
      obtain ⟨hblock, hrest⟩ := List.cons.inj hbs
      obtain ⟨hR, hQ⟩ := hstep b group s s' hb hs hblock
      obtain ⟨hlast, travelled, htravelled, hall⟩ := ih hR hrest
      rw [List.map_cons, pass_cons, List.flatten_cons, pass_append]
      refine ⟨hlast, _ :: travelled, ?_, .cons hQ hall⟩
      rw [htravelled, List.flatten_cons]

end PartProgram
