import PartProgram.Proofs.Program.Mapping
import PartProgram.Proofs.Program.Settled

/-! # The extent of a run

What a step adds to the extent depends on where it starts, where it ends and which arc it runs. Two runs
whose cutting moves are images of each other have extents that are, too.
-/

namespace PartProgram

namespace Tool

variable {α : Type} [Scalar α]

/-- The tool after it has drawn a placed block. -/
def draw (t : Tool α) (b : Block α) : Tool α :=
  if b.isDrawable then (t.setPen b.motion.isEngaged).addExtent b else t

omit [Scalar α] in
theorem setPen_at (t : Tool α) (position : Position α) (engaged : Bool) :
    ({ t with position } : Tool α).setPen engaged = { t.setPen engaged with position } := by
  rw [setPen, setPen]
  split <;> rfl

theorem addExtent_at (t : Tool α) (position : Position α) (b : Block α) :
    ({ t with position } : Tool α).addExtent b = { t.addExtent b with position } := by
  simp only [addExtent]
  split <;> split <;> rfl

/-- A step draws the block that it has placed. -/
theorem step_draws (machine : Machine α) (t : Tool α) (b : Block α) :
    (t.step machine b).1 = { t.draw (t.step machine b).2 with
      position := (t.step machine b).1.position, coordinates := (t.step machine b).1.coordinates } := by
  have hdrawable : (t.step machine b).2.isDrawable = b.isDrawable := by
    rw [eq_of_step]
    rfl
  rw [draw, hdrawable]
  cases hb : b.isDrawable with
  | false =>
      have hb' : ({ b with place := b.placementFrom machine t.position } : Block α).isDrawable = false := hb
      simp only [step, hb', Bool.false_eq_true, if_false]
  | true =>
      have hb' : ({ b with place := b.placementFrom machine t.position } : Block α).isDrawable = true := hb
      simp only [step, hb', if_true, setPen_at, addExtent_at]

section

variable (machine : Machine α) (t : Tool α) {b : Block α}

theorem draw_step : t.draw (t.step machine b).2 =
    if b.isDrawable then (t.setPen b.motion.isEngaged).addExtent (t.step machine b).2 else t := by
  rw [draw, eq_of_step]
  rfl

/-- A drawn block puts the pen down or lifts it. -/
theorem penDown_step (hdrawable : b.isDrawable = true) : (t.step machine b).1.penDown = b.motion.isEngaged := by
  rw [step_draws, draw_step, if_pos hdrawable, addExtent_penDown, setPen_penDown]

/-- A block that is not drawn leaves the pen alone. -/
theorem penDown_step_of_not_isDrawable (hdrawable : b.isDrawable = false) :
    (t.step machine b).1.penDown = t.penDown := by
  rw [step_draws, draw_step, hdrawable]
  rfl

/-- A block that does not cut in the plane leaves the start of the figure to the blocks after it. -/
theorem startPending_step (hcut : b.isDrawable = true → (b.motion.isEngaged && b.hasXY) = false) :
    (t.step machine b).1.startPending = (t.startPending || (b.isDrawable && b.motion.isEngaged && !t.penDown)) := by
  rw [step_draws, draw_step]
  cases hdrawable : b.isDrawable with
  | false => simp
  | true =>
      have hplaced : ((t.step machine b).2.motion.isEngaged && (t.step machine b).2.hasXY) = false := by
        rw [eq_of_step]
        exact hcut hdrawable
      rw [if_pos rfl, Bool.true_and, ← setPen_startPending]
      simp only [addExtent, hplaced, Bool.false_eq_true, if_false]
      split <;> rfl

/-- A rapid move without Z adds nothing to the extent. -/
theorem extent_step_rapid (hrapid : b.motion.isEngaged = false) (hz : b.z = none) :
    (t.step machine b).1.extent = t.extent := by
  have hplaced : (t.step machine b).2.motion.isEngaged = false ∧ (t.step machine b).2.z = none := by
    rw [eq_of_step]
    exact ⟨hrapid, hz⟩
  rw [step_draws, draw_step]
  split
  · simp only [addExtent, hplaced, Bool.false_and, Bool.false_eq_true, if_false, Option.isSome_none, setPen_extent]
  · rfl

end

end Tool

variable {α : Type} [Field α] [LinearOrder α] [IsStrictOrderedRing α] [FloorRing α] [PlaneFunctions α]

/-- The second of two placed blocks adds to an extent the image of what the first one adds. -/
structure Block.FramedBy (f : PlaneMap α) (b b' : Block α) : Prop where
  drawable : b'.isDrawable = b.isDrawable
  engaged : b'.motion.isEngaged = b.motion.isEngaged
  hasXY : b'.hasXY = b.hasXY
  z : b'.z = b.z
  height : b'.place.target.z = b.place.target.z
  cut : b.isDrawable = true → b.motion.isEngaged = true → b.hasXY = true →
    b'.place.origin.xy = f.point b.place.origin.xy ∧ b'.place.target.xy = f.point b.place.target.xy ∧
    Option.Rel (fun a a' => a'.boxPoints.Perm (a.boxPoints.map f.point)) b.place.arc b'.place.arc

/-- The second tool has drawn the image of what the first one has. As long as the start of the figure is not in
the extent, it does not matter whether the pen is down: it may be put down again. -/
structure Tool.FramedBy (f : PlaneMap α) (t t' : Tool α) : Prop where
  penDown : t.startPending = false → t'.penDown = t.penDown
  startPending : t'.startPending = t.startPending
  extent : t'.extent = f.extent t.extent

namespace Tool.FramedBy

variable {f : PlaneMap α} {t t' : Tool α}

omit [IsStrictOrderedRing α] [FloorRing α] [PlaneFunctions α] in
theorem setPen (h : FramedBy f t t') (engaged : Bool) : FramedBy f (t.setPen engaged) (t'.setPen engaged) := by
  refine ⟨fun _ => by rw [Tool.setPen_penDown, Tool.setPen_penDown], ?_, by simpa using h.extent⟩
  rw [Tool.setPen_startPending, Tool.setPen_startPending, h.startPending]
  cases hpending : t.startPending with
  | true => rfl
  | false => rw [h.penDown hpending]

theorem addExtent (h : FramedBy f t t') (hpen : t'.penDown = t.penDown) {b b' : Block α} (hb : Block.FramedBy f b b')
    (hdrawable : b.isDrawable = true) : FramedBy f (t.addExtent b) (t'.addExtent b') := by
  have harc : ∀ {a a' : Option (Arc α)} (e : Extent α),
      Option.Rel (fun a a' => a'.boxPoints.Perm (a.boxPoints.map f.point)) a a' →
      a'.elim (f.extent e) (f.extent e).includeArc = f.extent (a.elim e e.includeArc) := by
    intro a a' e ha
    cases ha with
    | none => rfl
    | some hperm =>
        simp only [Option.elim_some, Arc.includeArc_eq]
        rw [Extent.foldl_includeXY_perm _ hperm, f.extent_foldl_includeXY]
  have hstart : (if t.startPending then t'.extent.includeXY (f.point b.place.origin.xy) else t'.extent) =
      f.extent (if t.startPending then t.extent.includeXY b.place.origin.xy else t.extent) := by
    rw [h.extent]
    split
    · exact (f.extent_includeXY _ _).symm
    · rfl
  simp only [Tool.addExtent, hb.engaged, hb.hasXY, hb.z, hb.height, h.startPending]
  by_cases hcut : (b.motion.isEngaged && b.hasXY) = true
  · obtain ⟨hengaged, hxy⟩ := Bool.and_eq_true_iff.mp hcut
    obtain ⟨horigin, htarget, hbox⟩ := hb.cut hdrawable hengaged hxy
    rw [if_pos hcut, if_pos hcut, horigin, htarget, hstart, ← f.extent_includeXY, harc _ hbox]
    split
    · exact ⟨fun _ => hpen, rfl, (f.extent_includeZ _ _).symm⟩
    · exact ⟨fun _ => hpen, rfl, rfl⟩
  · rw [if_neg hcut, if_neg hcut]
    split
    · exact ⟨h.penDown, h.startPending, by rw [h.extent, f.extent_includeZ]⟩
    · exact h

theorem draw (h : FramedBy f t t') {b b' : Block α} (hb : Block.FramedBy f b b') :
    FramedBy f (t.draw b) (t'.draw b') := by
  rw [Tool.draw, Tool.draw, hb.drawable, hb.engaged]
  split
  · rename_i hdrawable
    exact (h.setPen _).addExtent (by rw [Tool.setPen_penDown, Tool.setPen_penDown]) hb hdrawable
  · exact h

theorem step (h : FramedBy f t t') {machine : Machine α} {b b' : Block α}
    (hb : Block.FramedBy f (t.step machine b).2 (t'.step machine b').2) :
    FramedBy f (t.step machine b).1 (t'.step machine b').1 := by
  obtain ⟨hpen, hpending, hextent⟩ := h.draw hb
  rw [t.step_draws, t'.step_draws]
  exact ⟨hpen, hpending, hextent⟩

/-- Two runs side by side. -/
theorem pass (h : FramedBy f t t') {machine : Machine α} {bs bs' : List (Block α)}
    (hbs : List.Forall₂ (Block.FramedBy f) (PartProgram.pass (Tool.step machine) t bs).2
      (PartProgram.pass (Tool.step machine) t' bs').2) :
    FramedBy f (PartProgram.pass (Tool.step machine) t bs).1 (PartProgram.pass (Tool.step machine) t' bs').1 := by
  induction bs generalizing bs' t t' with
  | nil =>
      cases bs' with
      | nil => exact h
      | cons b' bs' => simp [pass_cons] at hbs
  | cons b bs ih =>
      cases bs' with
      | nil => simp [pass_cons] at hbs
      | cons b' bs' =>
          rw [pass_cons, pass_cons] at hbs
          obtain ⟨hb, hrest⟩ := List.forall₂_cons.mp hbs
          rw [pass_cons, pass_cons]
          exact ih (h.step hb) hrest

end Tool.FramedBy

/-! ### Changed programs -/

omit [IsStrictOrderedRing α] in
/-- Where the words of the lines are mapped, those of all steps are. A copy may run in another distance mode than
its line. -/
theorem Program.Settled.mappedBy {p : Program α} {machine : Machine α} (h : p.Settled machine) {f : Block α → Block α}
    {g : PlaneMap α} (hf : ∀ line ∈ p.lines, line.RewordOf (f line))
    (hblank : ∀ b : Block α, b.Repeats none → (f b).Repeats none) {b : Block α} (hb : b ∈ p.executed)
    (hword : ∀ line, p.HasWordsOf b line → ∀ m : MirrorAxis, (f line).axes.get m.axis =
      (line.axes.get m.axis).map fun v => if b.absolute then g.coordinate m v else g.factor m * v)
    (hz : ∀ line, p.HasWordsOf b line → (f line).axes.get .z = line.axes.get .z)
    (hoffset : ∀ line, p.HasWordsOf b line → ∀ m,
      (f line).mirrorOffset m = (line.mirrorOffset m).map (g.factor m * ·)) :
    b.MappedBy g (p.revised f b) := by
  obtain ⟨line, hsource, hline, hline'⟩ := h.exists_repeats hf hblank hb
  have hedit := editOf_revised (p := p) f b
  refine ⟨hedit.absolute, ⟨h.inWork b hb, hedit.machineFrame.trans (h.inWork b hb)⟩, ?_, ?_, ?_, isArc_revised f b⟩
  · intro m
    rw [hline.axes, hline'.axes]
    exact hword line hsource m
  · rw [hline.axes, hline'.axes]
    exact hz line hsource
  · intro m
    rw [hline.mirrorOffset, hline'.mirrorOffset]
    exact hoffset line hsource m

omit [IsStrictOrderedRing α] in
theorem Block.MappedBy.framedBy {f : PlaneMap α} {b b' : Block α} (h : MappedBy f b b') (hedit : EditOf b b')
    (hengaged : b'.motion.isEngaged = b.motion.isEngaged) (hheight : b'.place.target.z = b.place.target.z)
    (hcut : b.isDrawable = true → b.motion.isEngaged = true → b.hasXY = true →
      b'.place.origin.xy = f.point b.place.origin.xy ∧ b'.place.target.xy = f.point b.place.target.xy ∧
      Option.Rel (fun a a' => a'.boxPoints.Perm (a.boxPoints.map f.point)) b.place.arc b'.place.arc) :
    FramedBy f b b' where
  drawable := by simp only [isDrawable, hedit.machineFrame, hedit.hidden, hedit.afterEnd]
  engaged := hengaged
  hasXY := by
    have hx := h.word .x
    have hy := h.word .y
    change b'.x = b.x.map _ at hx
    change b'.y = b.y.map _ at hy
    simp only [Block.hasXY, hx, hy, Option.isSome_map]
  z := h.z
  height := hheight
  cut := hcut

namespace Program.Reworded

variable {f : Block α → Block α} {g : PlaneMap α} {machine : Machine α} {p q : Program α}

omit [IsStrictOrderedRing α] in
/-- A program with mapped words takes the tool through the images. -/
theorem mapped (h : Reworded f machine p q) (hp : p.Settled machine)
    (hmapped : ∀ b ∈ p.executed, b.MappedBy g (p.revised f b)) {n : ℕ} {b b' : Block α}
    (hb : p.executed[n]? = some b) (hb' : q.executed[n]? = some b') :
    b'.place.origin = (g.after machine.workPosition.xy (p.executed.take n)).position b.place.origin ∧
      b'.place.target = (g.after machine.workPosition.xy (p.executed.take (n + 1))).position b.place.target ∧
      Option.Rel (fun a a' => a'.center = (g.after machine.workPosition.xy (p.executed.take n)).point a.center)
        b.place.arc b'.place.arc := by
  have hwords : List.Forall₂ (Block.MappedBy g) p.executed (p.executed.map (p.revised f)) := by
    rw [List.forall₂_map_right_iff, List.forall₂_same]
    exact hmapped
  rw [h.executed] at hb'
  exact Tool.pass_mappedBy hp.placed hwords hb hb'

/-- If every move that cuts is the image of the one before the change, the extent is, too. -/
theorem extent_eq (h : Reworded f machine p q) (hp : p.Settled machine)
    (hmapped : ∀ b ∈ p.executed, b.MappedBy g (p.revised f b))
    (hcut : ∀ (n : ℕ) b b', p.executed[n]? = some b → q.executed[n]? = some b' →
      b.isDrawable = true → b.motion.isEngaged = true → b.hasXY = true →
      g.after machine.workPosition.xy (p.executed.take n) = g ∧
      Option.Rel (fun a a' => a'.boxPoints.Perm (a.boxPoints.map g.point)) b.place.arc b'.place.arc) :
    q.extent = g.extent p.extent := by
  have hframed : List.Forall₂ (Block.FramedBy g) (pass (Tool.step machine) (.atStart machine) p.executed).2
      (pass (Tool.step machine) (.atStart machine) (p.executed.map (p.revised f))).2 := by
    rw [hp.placed, ← h.executed]
    refine forall₂_of_getElem? h.forall₂.length_eq fun n b b' hb hb' => ?_
    obtain ⟨horigin, htarget, -⟩ := h.mapped hp hmapped hb hb'
    have hmem := List.mem_of_getElem? hb
    have hsame := h.forall₂_getElem? hb hb'
    refine Block.MappedBy.framedBy ?_ (editOf_of_revised hsame) ?_ (by rw [htarget]; rfl) ?_
    · rw [hsame]
      exact (hmapped b hmem).placed _
    · rw [hsame]
      exact isEngaged_revised f b
    · intro hdrawable hengaged hxy
      obtain ⟨hafter, harc⟩ := hcut n b b' hb hb' hdrawable hengaged hxy
      refine ⟨?_, ?_, harc⟩
      · rw [horigin, PlaneMap.position_xy, hafter]
      · rw [htarget, PlaneMap.position_xy, List.take_succ_of_getElem? hb, PlaneMap.after_append_eq _ hafter]
  rw [h.extent, ← hp.extent]
  exact (Tool.FramedBy.pass ⟨fun _ => rfl, rfl, rfl⟩ hframed).extent

end Program.Reworded

end PartProgram
