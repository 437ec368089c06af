import PartProgram.Proofs.Edit.Chain

/-! # Paths retraced

Lines that have been read again take the tool to the same places as the lines that were written.
-/

namespace PartProgram

variable {α : Type}

/-- The block that is read again has the words of the path, the distance mode and the speeds of the
block that has been written, and where there are coordinates also its motion. -/
structure Block.Reread (flips : Prop) (ended : Bool) (b b' : Block α) : Prop where
  axes : b'.axes = b.axes
  i : b'.i = b.i
  j : b'.j = b.j
  absolute : b'.absolute = b.absolute
  feed : b'.feed = b.feed
  spindle : b'.spindle = b.spindle
  motion : b'.motion.Like flips b.motion
  same : b.hasCoordinates = true → b'.motion = b.motion
  machineFrame : b.machineFrame = false ∧ b'.machineFrame = false
  hidden : b.hidden = false ∧ b'.hidden = false
  afterEnd : b'.afterEnd = ended
  ended : b.afterEnd = ended ∨ b.afterEnd = false ∧ b.motion = .rapid ∧ b.z = none

/-- The blocks of the second list are those of the first, read again one after the other. The flag
says whether the program has ended before. -/
inductive Retraces (flips : Prop) : Bool → List (Block α) → List (Block α) → Prop where
  | nil (ended) : Retraces flips ended [] []
  | cons {ended b b' bs bs'} (h : b.Reread flips ended b')
      (hrest : Retraces flips (ended || b.programEnd) bs bs') : Retraces flips ended (b :: bs) (b' :: bs')

/-- The second block does what the first one does. Where there are no coordinates, motions may differ
in the sense of an arc. -/
structure Block.Retraced (b b' : Block α) : Prop where
  axes : b'.axes = b.axes
  i : b'.i = b.i
  j : b'.j = b.j
  motion : b.hasCoordinates = true → b'.motion = b.motion
  absolute : b'.absolute = b.absolute
  feed : b'.feed = b.feed
  spindle : b'.spindle = b.spindle
  origin : b'.place.origin = b.place.origin
  target : b'.place.target = b.place.target
  figure : b'.place.figure = b.place.figure

/-- The tools have drawn the same, whatever coordinates they have collected. After the end of a program
the pen does not matter. -/
structure Tool.Alike (ended : Bool) (t t' : Tool α) : Prop where
  position : t'.position = t.position
  figures : t'.figures = t.figures
  extent : t'.extent = t.extent
  pen : ended = false → t'.penDown = t.penDown ∧ t'.startPending = t.startPending

variable [Scalar α]

namespace Tool

variable {t t' : Tool α} {b b' : Block α}

omit [Scalar α] in
theorem Alike.setPen (h : t.Alike false t') (engaged : Bool) :
    (t.setPen engaged).Alike false (t'.setPen engaged) := by
  obtain ⟨hdown, hpending⟩ := h.pen rfl
  simp only [Tool.setPen, hdown]
  split
  · exact ⟨h.position, by simp [h.figures], h.extent, fun _ => ⟨rfl, rfl⟩⟩
  · exact ⟨h.position, h.figures, h.extent, fun _ => ⟨rfl, hpending⟩⟩

theorem Alike.addExtent (h : t.Alike false t') (hengaged : b'.motion.isEngaged = b.motion.isEngaged)
    (hxy : b'.hasXY = b.hasXY) (hz : b'.z = b.z) (hplace : b'.place = b.place) :
    (t.addExtent b).Alike false (t'.addExtent b') := by
  obtain ⟨hdown, hpending⟩ := h.pen rfl
  simp only [Tool.addExtent, hengaged, hxy, hz, hplace, h.extent, hpending]
  split <;> split
  · exact ⟨h.position, h.figures, rfl, fun _ => ⟨hdown, rfl⟩⟩
  · exact ⟨h.position, h.figures, by simp [h.extent], fun _ => ⟨hdown, hpending⟩⟩
  · exact ⟨h.position, h.figures, rfl, fun _ => ⟨hdown, rfl⟩⟩
  · exact ⟨h.position, h.figures, h.extent, fun _ => ⟨hdown, hpending⟩⟩

end Tool

namespace Block.Reread

variable {flips : Prop} {ended : Bool} {b b' : Block α} (h : b.Reread flips ended b') (machine : Machine α)

include h

theorem placementFrom_eq (origin : Position α) :
    b'.placementFrom machine origin = b.placementFrom machine origin := by
  obtain ⟨hframe, hframe'⟩ := h.machineFrame
  have htarget : b'.targetFrom machine origin = b.targetFrom machine origin := by
    simp only [targetFrom, axisTarget, h.axes, h.absolute, hframe, hframe']
  have harc : ∀ target : Point α, b'.arcBetween origin.xy target = b.arcBetween origin.xy target := by
    intro target
    simp only [arcBetween, h.i, h.j]
    by_cases hoffset : b.i.isSome || b.j.isSome
    · have hcoordinates : b.hasCoordinates = true := by
        simp only [hasCoordinates, Bool.or_assoc, hoffset, Bool.or_true]
      rw [h.same hcoordinates]
    · simp only [hoffset, Bool.false_eq_true, if_false]
      cases b'.motion.winding? <;> cases b.motion.winding? <;> rfl
  simp only [placementFrom, htarget, harc]

/-- The line that is read again takes the tool where the written one takes it. -/
theorem step {t t' : Tool α} (ht : t.Alike ended t') :
    (t.step machine b).1.Alike (ended || b.programEnd) (t'.step machine b').1 ∧
      (t.step machine b).2.Retraced (t'.step machine b').2 := by
  have hplacement := h.placementFrom_eq machine t.position
  have hengaged : b'.motion.isEngaged = b.motion.isEngaged := h.motion.isEngaged_eq
  have hxy : b'.hasXY = b.hasXY := by simp only [hasXY, x, y, h.axes]
  have hz : b'.z = b.z := by simp only [z, h.axes]
  obtain ⟨hframe, hframe'⟩ := h.machineFrame
  obtain ⟨hhidden, hhidden'⟩ := h.hidden
  have hafter' := h.afterEnd
  simp only [Tool.step, ht.position, hplacement, isDrawable, hframe, hframe', hhidden, hhidden', hafter',
    Bool.or_self, Bool.false_or, hengaged]
  have hfigure : (b.placementFrom machine t.position).figure = none := rfl
  generalize b.placementFrom machine t.position = placement at hfigure ⊢
  have hmoved : ({ t with position := placement.target } : Tool α).Alike ended
      { t' with position := placement.target } := ⟨rfl, ht.figures, ht.extent, ht.pen⟩
  cases ended with
  | false =>
      have hafter : b.afterEnd = false := by
        rcases h.ended with hafter | ⟨hafter, -⟩ <;> exact hafter
      simp only [hafter, Bool.not_false, if_true]
      have hpen := hmoved.setPen b.motion.isEngaged
      generalize Tool.setPen { t with position := placement.target } b.motion.isEngaged = u at hpen
      have hdrawn : ∀ figure, (u.addExtent { b with place := { placement with figure } }).Alike false
          (Tool.addExtent (Tool.setPen { t' with position := placement.target } b.motion.isEngaged)
            { b' with place := { placement with figure } }) := fun _ =>
        hpen.addExtent hengaged hxy hz rfl
      rw [hpen.figures]
      refine ⟨⟨(hdrawn _).position, (hdrawn _).figures, (hdrawn _).extent, fun _ => (hdrawn _).pen rfl⟩, ?_⟩
      exact ⟨h.axes, h.i, h.j, h.same, h.absolute, h.feed, h.spindle, rfl, rfl, rfl⟩
  | true =>
      simp only [Bool.not_true, Bool.false_eq_true, if_false]
      rcases h.ended with hafter | ⟨hafter, hrapid, hnone⟩
      · simp only [hafter, Bool.not_true, Bool.false_eq_true, if_false]
        exact ⟨⟨rfl, ht.figures, ht.extent, by simp⟩,
          ⟨h.axes, h.i, h.j, h.same, h.absolute, h.feed, h.spindle, rfl, rfl, rfl⟩⟩
      -- The move of an offset after the end: it is drawn when it is edited, but adds nothing.
      · have hidle : b.motion.isEngaged = false := by rw [hrapid]; rfl
        simp only [hafter, Bool.not_false, if_true, hidle, Tool.setPen, Tool.addExtent, Bool.false_and,
          Bool.false_eq_true, if_false, z, show b.axes.get .z = none from hnone, Option.isSome_none]
        exact ⟨⟨rfl, ht.figures, ht.extent, by simp⟩,
          ⟨h.axes, h.i, h.j, h.same, h.absolute, h.feed, h.spindle, rfl, rfl, hfigure⟩⟩

end Block.Reread

/-- Lines that are read again retrace the path, and they draw what the written lines draw. -/
theorem Retraces.pass {flips : Prop} {ended : Bool} {bs bs' : List (Block α)} (h : Retraces flips ended bs bs')
    (machine : Machine α) {t t' : Tool α} (ht : t.Alike ended t') :
    List.Forall₂ Block.Retraced (PartProgram.pass (Tool.step machine) t bs).2
        (PartProgram.pass (Tool.step machine) t' bs').2 ∧
      (PartProgram.pass (Tool.step machine) t' bs').1.figures =
        (PartProgram.pass (Tool.step machine) t bs).1.figures ∧
      (PartProgram.pass (Tool.step machine) t' bs').1.extent =
        (PartProgram.pass (Tool.step machine) t bs).1.extent := by
  induction h generalizing t t' with
  | nil => exact ⟨.nil, ht.figures, ht.extent⟩
  | cons hb _ ih =>
      obtain ⟨ht, hretraced⟩ := hb.step machine ht
      obtain ⟨hlines, hdrawn⟩ := ih ht
      rw [pass_cons, pass_cons]
      exact ⟨.cons hretraced hlines, hdrawn⟩

end PartProgram
