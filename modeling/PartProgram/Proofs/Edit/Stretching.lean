import PartProgram.Proofs.Program.Framing

/-! # The path stretched along the axes

Coordinates, displacements and arc offsets are all multiplied by the factor of their axis. A program that
starts in the origin is then stretched as a whole, with everything that its calls run.
-/

namespace PartProgram

namespace Block

variable {α : Type} [Scalar α] (fx fy : α) (b : Block α)

theorem rewordOf_stretched : RewordOf b (b.stretched fx fy) := by
  refine ⟨b.editOf_stretched fx fy, ?_, .inl ?_⟩ <;> rw [stretched] <;> split <;> rfl

/-- The words of a stretched line, whether or not it has any. -/
theorem word_stretched (m : MirrorAxis) :
    (b.stretched fx fy).axes.get m.axis = (b.axes.get m.axis).map (· * m.along ⟨fx, fy⟩) := by
  rw [stretched]
  split
  · cases m with
    | x => exact b.axes.get_set_plane _ _ .x
    | y => exact b.axes.get_set_plane _ _ .y
  · rename_i h
    simp only [writesPlane, hasXY, Bool.or_eq_true, not_or, Option.not_isSome_iff_eq_none] at h
    have hnone : b.axes.get m.axis = none := by
      cases m with
      | x => exact h.1.1.1
      | y => exact h.1.1.2
    rw [hnone, Option.map_none]

theorem offset_stretched (m : MirrorAxis) :
    (b.stretched fx fy).mirrorOffset m = (b.mirrorOffset m).map (· * m.along ⟨fx, fy⟩) := by
  rw [stretched]
  split
  · cases m <;> rfl
  · rename_i h
    simp only [writesPlane, Bool.or_eq_true, not_or, Option.not_isSome_iff_eq_none] at h
    have hnone : b.mirrorOffset m = none := by
      cases m with
      | x => exact h.1.2
      | y => exact h.2
    rw [hnone, Option.map_none]

theorem z_stretched : (b.stretched fx fy).axes.get .z = b.axes.get .z := by
  rw [stretched]
  split
  · exact b.axes.get_set_plane_of_ne _ _ (by decide) (by decide)
  · rfl

theorem repeats_none_stretched {b : Block α} (h : b.Repeats none) : (b.stretched fx fy).Repeats none := by
  have hidle : b.writesPlane = false := by
    simp [writesPlane, hasXY, x, y, h.axes, h.i, h.j]
  rwa [stretched, if_neg (by simp [hidle])]

end Block

variable {α : Type} [Field α] [LinearOrder α] [IsStrictOrderedRing α] [FloorRing α] [PlaneFunctions α]

/-- Each coordinate is multiplied by its factor. -/
def PlaneMap.stretch (fx fy : α) : PlaneMap α := ⟨fun m => m.along ⟨fx, fy⟩, fun _ => 0⟩

/-- The second step goes where the first does, with X and Y multiplied, and about a centre that is stretched
in the same way. -/
structure Block.Stretches (fx fy : α) (b b' : Block α) : Prop where
  x : b'.place.target.x = fx * b.place.target.x
  y : b'.place.target.y = fy * b.place.target.y
  z : b'.place.target.z = b.place.target.z
  arc : Option.Rel (fun a a' => a'.center = ⟨fx * a.center.x, fy * a.center.y⟩) b.place.arc b'.place.arc

omit [IsStrictOrderedRing α] in
theorem Block.Stretches.path {fx fy : α} {b b' : Block α} (h : b.Stretches fx fy b') :
    (b'.place.target, b'.place.arc.map (·.center)) =
      (⟨fx * b.place.target.x, fy * b.place.target.y, b.place.target.z⟩,
        (b.place.arc.map (·.center)).map fun c => ⟨fx * c.x, fy * c.y⟩) := by
  have hcenter : b'.place.arc.map (·.center) =
      (b.place.arc.map (·.center)).map fun c => ⟨fx * c.x, fy * c.y⟩ := by
    have harc := h.arc
    generalize b.place.arc = a at harc
    generalize b'.place.arc = a' at harc
    cases harc with
    | none => rfl
    | some heq => simp [heq]
  rw [hcenter, ← h.x, ← h.y, ← h.z]

namespace Program

omit [IsStrictOrderedRing α] in
/-- Every step of a stretched program has stretched words. -/
theorem Settled.mappedBy_stretched {p : Program α} {machine : Machine α} (h : p.Settled machine) (fx fy : α)
    {b : Block α} (hb : b ∈ p.executed) : b.MappedBy (.stretch fx fy) (p.revised (Block.stretched fx fy) b) := by
  refine h.mappedBy (fun line _ => line.rewordOf_stretched fx fy)
    (fun _ => Block.repeats_none_stretched fx fy) hb ?_ ?_ ?_
  · intro line _ m
    rw [line.word_stretched]
    simp [PlaneMap.coordinate, PlaneMap.stretch, mul_comm (m.along _)]
  · exact fun line _ => line.z_stretched fx fy
  · intro line _ m
    rw [line.offset_stretched]
    simp [PlaneMap.stretch, mul_comm (m.along _)]

omit [IsStrictOrderedRing α] in
/-- An edit stretches the path of a settled program, and leaves the program settled. -/
theorem Settled.stretches {p : Program α} {machine : Machine α} (h : p.Settled machine) (settings : Settings α)
    (hx : machine.workPosition.x = 0) (hy : machine.workPosition.y = 0) (fx fy : α) :
    let q := (Edit.apply (.stretch (fx * 100) (fy * 100)) p settings machine).1
    q.Settled machine ∧ List.Forall₂ (Block.Stretches fx fy) p.executed q.executed := by
  intro q
  have hpercent : ∀ f : α, f * 100 / Scalar.ofNat 100 = f := by
    intro f
    have hhundred : (Scalar.ofNat 100 : α) = 100 := Nat.cast_ofNat
    rw [hhundred]
    exact mul_div_cancel_right₀ f (by norm_num)
  have hchange : Edit.change (.stretch (fx * 100) (fy * 100)) p settings = p.mapLines (Block.stretched fx fy) := by
    change p.stretch (fx * 100 / Scalar.ofNat 100) (fy * 100 / Scalar.ofNat 100) = _
    rw [hpercent, hpercent, stretch, editLines_eq_mapLines h.editable]
  have hq : Reworded (Block.stretched fx fy) machine p q :=
    h.apply (by simp) hchange fun line _ => line.rewordOf_stretched fx fy
  refine ⟨hq.settled, forall₂_of_getElem? hq.forall₂.length_eq fun n b b' hb hb' => ?_⟩
  have hstart : ∀ before, (PlaneMap.stretch fx fy).after machine.workPosition.xy before = .stretch fx fy := by
    intro before
    apply PlaneMap.after_eq
    intro m
    right
    cases m <;> simp [MirrorAxis.along, Position.xy, PlaneMap.stretch, hx, hy]
  obtain ⟨-, htarget, harc⟩ := hq.mapped h (fun b => h.mappedBy_stretched fx fy) hb hb'
  rw [hstart] at htarget harc
  have hcoordinate : ∀ m v, (PlaneMap.stretch fx fy).coordinate m v = m.along ⟨fx, fy⟩ * v := by
    intro m v
    rw [PlaneMap.coordinate]
    exact add_zero _
  simp only [PlaneMap.position, PlaneMap.point, hcoordinate] at htarget harc
  exact ⟨by rw [htarget]; rfl, by rw [htarget]; rfl, by rw [htarget], harc⟩

omit [IsStrictOrderedRing α] in
/-- A program that starts in the origin is stretched with everything that it runs. Two stretches are one by
the products of their factors. -/
theorem stretches_apply (text : String) (settings : Settings α) (machine : Machine α) (fx fy gx gy : α) :
    let p := read text settings machine
    let stretched (fx fy : α) (p : Program α) := (Edit.apply (.stretch (fx * 100) (fy * 100)) p settings machine).1
    let path (p : Program α) := p.executed.map fun b => (b.place.target, b.place.arc.map (·.center))
    (∀ b ∈ p.lines, b.isEditable = true) → machine.workPosition.x = 0 → machine.workPosition.y = 0 →
      List.Forall₂ (Block.Stretches fx fy) p.executed (stretched fx fy p).executed ∧
      path (stretched gx gy (stretched fx fy p)) = path (stretched (fx * gx) (fy * gy) p) := by
  intro p stretched path heditable hx hy
  have hp : p.Settled machine := settled_ofLines heditable
  obtain ⟨hsettled, honce⟩ := hp.stretches settings hx hy fx fy
  obtain ⟨-, htwice⟩ := hsettled.stretches settings hx hy gx gy
  obtain ⟨-, hboth⟩ := hp.stretches settings hx hy (fx * gx) (fy * gy)
  refine ⟨honce, ?_⟩
  have hpath : ∀ {fx fy : α} {p q : Program α}, List.Forall₂ (Block.Stretches fx fy) p.executed q.executed →
      path q = (path p).map fun v =>
        (⟨fx * v.1.x, fy * v.1.y, v.1.z⟩, v.2.map fun c => ⟨fx * c.x, fy * c.y⟩) := by
    intro fx fy p q h
    simp only [path, List.map_map]
    generalize p.executed = bs at h
    generalize q.executed = bs' at h
    induction h with
    | nil => rfl
    | cons hb _ ih => rw [List.map_cons, List.map_cons, ih, Function.comp_apply, hb.path]
  rw [hpath htwice, hpath honce, hpath hboth, List.map_map]
  apply List.map_congr_left
  rintro ⟨target, center?⟩ -
  cases center? <;> simp [mul_left_comm, mul_assoc]

/-- A body with an arc that is called in both distance modes. -/
theorem stretches_called_twice :
    let _ := PlaneFunctions.axial
    let machine : Machine ℚ := .default
    let p := read "G1 X2 Y1\nM98 P1\nG90 Y5\nM98 P1 L2\nM30\nO1\nG2 X4 I2\nG91 G1 Y-1\nM99\n" .default machine
    let stretched (fx fy : ℚ) (p : Program ℚ) := (Edit.apply (.stretch (fx * 100) (fy * 100)) p .default machine).1
    let path (p : Program ℚ) := p.executed.map fun b => (b.place.target, b.place.arc.map (·.center))
    ((∀ b ∈ p.lines, b.isEditable = true) ∧ machine.workPosition.x = 0 ∧ machine.workPosition.y = 0) ∧
    (path p)[8]? = some (⟨8, 4, 0⟩, some ⟨6, 4⟩) ∧
    List.Forall₂ (Block.Stretches 2 (1 / 3)) p.executed (stretched 2 (1 / 3) p).executed ∧
    path (stretched (-1) 6 (stretched 2 (1 / 3) p)) = path (stretched (2 * -1) (1 / 3 * 6) p) := by
  intro _ machine p stretched path
  have heditable : ∀ b ∈ p.lines, b.isEditable = true := by decide +kernel
  refine ⟨⟨heditable, rfl, rfl⟩, by decide +kernel, ?_⟩
  exact stretches_apply _ .default machine 2 (1 / 3) (-1) 6 heditable rfl rfl

end Program

end PartProgram
