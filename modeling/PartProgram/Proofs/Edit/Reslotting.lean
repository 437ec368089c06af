import PartProgram.Proofs.Edit.Slots

/-! # The slot in a shifted program

The lines of a shifted program are searched for a slot once more. A retract is found where it was, and behind it
the tool is positioned now. Without a retract the search stops at the first coordinates again, and they are those
of the move that has been added.
-/

namespace PartProgram

variable {α : Type}

/-- The motion, or another one as long as none has been selected. -/
def Motion.orElse (m other : Motion) : Motion := if m = .unset then other else m

@[simp]
theorem Motion.orElse_unset (m : Motion) : m.orElse .unset = m := by
  rw [orElse]
  split
  · rename_i h
    exact h.symm
  · rfl

theorem Motion.orElse_of_ne {m : Motion} (h : m ≠ .unset) (other : Motion) : m.orElse other = m := if_neg h

namespace Block

/-- The block as it runs if a motion has been selected before. -/
def runUnder (motion : Motion) (b : Block α) : Block α := { b with motion := b.motion.orElse motion }

@[simp]
theorem runUnder_unset (b : Block α) : b.runUnder .unset = b := by rw [runUnder, Motion.orElse_unset]

/-- The search for a slot finds in the second block what it finds in the first. It may find an X or a Y in addition. -/
structure GrowsTo (b b' : Block α) : Prop where
  editable : b'.isEditable = b.isEditable
  afterEnd : b'.afterEnd = b.afterEnd
  absolute : b'.absolute = b.absolute
  motion : b'.motion = b.motion
  coordinates : b'.hasCoordinates = b.hasCoordinates
  x : b.x.isSome = true → b'.x.isSome = true
  y : b.y.isSome = true → b'.y.isSome = true
  z : b'.z.isSome = b.z.isSome

/-- The search for a slot cannot tell the blocks from each other. -/
def LooksLike (b b' : Block α) : Prop := b.GrowsTo b' ∧ b'.GrowsTo b

/-- Relative coordinates in front of which a move may be added. -/
def hasOffsets (b : Block α) : Bool := b.mayShift && !b.absolute && b.hasCoordinates

theorem GrowsTo.refl (b : Block α) : b.GrowsTo b := ⟨rfl, rfl, rfl, rfl, rfl, id, id, rfl⟩

/-- The mark of a changed line is not looked at. -/
theorem MarkedAs.looksLike {b b' : Block α} (h : b.MarkedAs b') : b.LooksLike b' := by
  rcases h with rfl | rfl
  · exact ⟨.refl b', .refl b'⟩
  · exact ⟨⟨rfl, rfl, rfl, rfl, rfl, id, id, rfl⟩, ⟨rfl, rfl, rfl, rfl, rfl, id, id, rfl⟩⟩

variable {b b' b'' : Block α}

theorem GrowsTo.trans (h : b.GrowsTo b') (h' : b'.GrowsTo b'') : b.GrowsTo b'' where
  editable := h'.editable.trans h.editable
  afterEnd := h'.afterEnd.trans h.afterEnd
  absolute := h'.absolute.trans h.absolute
  motion := h'.motion.trans h.motion
  coordinates := h'.coordinates.trans h.coordinates
  x := h'.x ∘ h.x
  y := h'.y ∘ h.y
  z := h'.z.trans h.z

theorem LooksLike.trans (h : b.LooksLike b') (h' : b'.LooksLike b'') : b.LooksLike b'' :=
  ⟨h.1.trans h'.1, h'.2.trans h.2⟩

theorem LooksLike.runUnder (h : b.LooksLike b') (motion : Motion) :
    (b.runUnder motion).LooksLike (b'.runUnder motion) := by
  have hmotion : (b'.runUnder motion).motion = (b.runUnder motion).motion :=
    congrArg (Motion.orElse · motion) h.1.motion
  exact ⟨⟨h.1.editable, h.1.afterEnd, h.1.absolute, hmotion, h.1.coordinates, h.1.x, h.1.y, h.1.z⟩,
    ⟨h.2.editable, h.2.afterEnd, h.2.absolute, hmotion.symm, h.2.coordinates, h.2.x, h.2.y, h.2.z⟩⟩

namespace GrowsTo

theorem isRetract (h : b.GrowsTo b') : b'.isRetract = b.isRetract := by
  simp only [Block.isRetract, mayShift, h.editable, h.afterEnd, h.absolute, h.motion, h.z]

theorem hasOffsets (h : b.GrowsTo b') : b'.hasOffsets = b.hasOffsets := by
  simp only [Block.hasOffsets, mayShift, h.editable, h.afterEnd, h.absolute, h.coordinates]

theorem isPositioning (h : b.GrowsTo b') (hpositioning : b.isPositioning = true) : b'.isPositioning = true := by
  simp only [Block.isPositioning, Bool.and_eq_true, h.motion] at hpositioning ⊢
  exact ⟨⟨hpositioning.1.1, h.x hpositioning.1.2⟩, h.y hpositioning.2⟩

end GrowsTo

end Block

/-! ### Positioning -/

theorem positionsFirst_of_growsTo {bs bs' : List (Block α)} (h : List.Forall₂ Block.GrowsTo bs bs')
    (hfirst : positionsFirst bs = true) : positionsFirst bs' = true := by
  induction h with
  | nil => simp [positionsFirst] at hfirst
  | @cons b b' _ _ hb _ ih =>
      rw [positionsFirst] at hfirst ⊢
      split
      · rfl
      · rename_i hidle
        rw [if_neg fun hpositioning => hidle (hb.isPositioning hpositioning)] at hfirst
        rw [hb.motion]
        split
        · rename_i hengaged
          simp [hengaged] at hfirst
        · rename_i hengaged
          exact ih (by simpa [hengaged] using hfirst)

/-- The tool is lifted and positioned before it cuts. -/
def positionsLifted (lines : List (Block α)) : Bool :=
  (lines.findIdx? Block.isRetract).any fun n => positionsFirst (lines.drop (n + 1))

theorem positionsLifted_of_growsTo {bs bs' : List (Block α)} (h : List.Forall₂ Block.GrowsTo bs bs')
    (hlifted : positionsLifted bs = true) : positionsLifted bs' = true := by
  have hretract : bs'.findIdx? Block.isRetract = bs.findIdx? Block.isRetract :=
    findIdx?_eq_of_forall₂ (fun _ _ hb => hb.isRetract) h
  rw [positionsLifted, Option.any_eq_true] at hlifted ⊢
  obtain ⟨n, hn, hfirst⟩ := hlifted
  exact ⟨n, hretract.trans hn, positionsFirst_of_growsTo (List.forall₂_drop (n + 1) h) hfirst⟩

theorem positionsLifted_eq {bs bs' : List (Block α)} (h : List.Forall₂ Block.LooksLike bs bs') :
    positionsLifted bs' = positionsLifted bs := by
  rw [Bool.eq_iff_iff]
  exact ⟨positionsLifted_of_growsTo (h.flip.imp fun _ _ hb => hb.2), positionsLifted_of_growsTo (h.imp fun _ _ hb => hb.1)⟩

/-- Lines before the first retract do not count. -/
theorem positionsLifted_append {xs : List (Block α)} (h : ∀ b ∈ xs, b.isRetract = false) (ys : List (Block α)) :
    positionsLifted (xs ++ ys) = positionsLifted ys := by
  have hnone : xs.findIdx? Block.isRetract = none := List.findIdx?_eq_none_iff.mpr h
  rw [positionsLifted, positionsLifted, List.findIdx?_append, hnone, Option.none_or, Option.any_map]
  refine congrArg (Option.any · _) (funext fun n => ?_)
  have hindex : n + xs.length + 1 = xs.length + (n + 1) := by omega
  rw [hindex, List.drop_length_add_append]

theorem any_isRetract_of_positionsLifted {lines : List (Block α)} (h : positionsLifted lines = true) :
    lines.any Block.isRetract = true := by
  rw [positionsLifted, Option.any_eq_true] at h
  obtain ⟨n, hn, -⟩ := h
  rw [← List.findIdx?_isSome, hn]
  rfl

/-! ### The search -/

/-- There is no slot if the tool is positioned behind its first retract, or if it is not lifted and no coordinates
are relative. -/
theorem isSome_offsetSlot (lines : List (Block α)) :
    (offsetSlot lines).isSome =
      if lines.any Block.isRetract then !positionsLifted lines else lines.any Block.hasOffsets := by
  rw [offsetSlot, positionsLifted, ← List.findIdx?_isSome, ← List.findIdx?_isSome]
  cases lines.findIdx? Block.isRetract with
  | some n =>
      dsimp only
      rw [Option.isSome_some, if_pos rfl, Option.any_some]
      split <;> rename_i h <;> simp [h]
  | none =>
      rw [Option.isSome_none, if_neg Bool.false_ne_true, Option.isSome_map]
      rfl

theorem offsetSlot_eq_none_of_growsTo {bs bs' : List (Block α)} (h : List.Forall₂ Block.GrowsTo bs bs')
    (hnone : offsetSlot bs = none) : offsetSlot bs' = none := by
  have hsame : ∀ {f : Block α → Bool}, (∀ b b', b.GrowsTo b' → f b' = f b) → bs'.any f = bs.any f := by
    intro f hf
    rw [← List.findIdx?_isSome, ← List.findIdx?_isSome, findIdx?_eq_of_forall₂ hf h]
  have hslot := isSome_offsetSlot bs
  rw [hnone, Option.isSome_none] at hslot
  rw [← Option.isNone_iff_eq_none, ← Option.not_isSome, isSome_offsetSlot, hsame fun _ _ hb => hb.isRetract,
    hsame fun _ _ hb => hb.hasOffsets]
  split at hslot
  · rename_i hretract
    rw [if_pos hretract, positionsLifted_of_growsTo h (by simpa using hslot.symm)]
    rfl
  · rename_i hretract
    rw [if_neg hretract, ← hslot]
    rfl

/-- Where the slot is: behind the first retract, or, where there is none, in front of relative coordinates. -/
theorem cases_of_offsetSlot {lines : List (Block α)} {slot : OffsetSlot} (h : offsetSlot lines = some slot) :
    (slot.selectsRelative = false ∧ ∃ before b, lines.take slot.line = before ++ [b] ∧
      (∀ c ∈ before, c.isRetract = false) ∧ b.isRetract = true) ∨
    (slot.selectsRelative = true ∧ (∀ c ∈ lines, c.isRetract = false) ∧
      ∃ b after, lines.drop slot.line = b :: after ∧ b.hasOffsets = true) := by
  rw [offsetSlot] at h
  split at h
  · rename_i n hn
    obtain ⟨hlength, hb, hbefore⟩ := List.findIdx?_eq_some_iff_getElem.mp hn
    split at h
    · simp at h
    · obtain rfl : (⟨n + 1, false⟩ : OffsetSlot) = slot := by simpa using h
      refine .inl ⟨rfl, lines.take n, lines[n], List.take_succ_eq_append_getElem hlength, ?_, hb⟩
      intro c hc
      obtain ⟨k, hk, rfl⟩ := List.mem_take_iff_getElem.mp hc
      simpa using hbefore k (lt_of_lt_of_le hk (min_le_left _ _))
  · rename_i hnone
    obtain ⟨n, hn, rfl⟩ := Option.map_eq_some_iff.mp h
    obtain ⟨hlength, hb, -⟩ := List.findIdx?_eq_some_iff_getElem.mp hn
    exact .inr ⟨rfl, List.findIdx?_eq_none_iff.mp hnone, lines[n], lines.drop (n + 1),
      List.drop_eq_getElem_cons hlength, hb⟩

/-- Only relative coordinates need a slot. -/
theorem exists_relative_of_offsetSlot {lines : List (Block α)} {slot : OffsetSlot} (h : offsetSlot lines = some slot) :
    ∃ b ∈ lines, b.absolute = false := by
  rcases cases_of_offsetSlot h with ⟨-, before, b, htake, -, hb⟩ | ⟨-, -, b, after, hdrop, hb⟩
  · refine ⟨b, List.mem_of_mem_take (i := slot.line) (by simp [htake]), ?_⟩
    simp only [Block.isRetract, Bool.and_eq_true, Bool.not_eq_true'] at hb
    exact hb.1.1.2
  · refine ⟨b, List.mem_of_mem_drop (i := slot.line) (by simp [hdrop]), ?_⟩
    simp only [Block.hasOffsets, Bool.and_eq_true, Bool.not_eq_true'] at hb
    exact hb.1.2

section

variable {front back : List (Block α)} {b move : Block α} (hfront : ∀ c ∈ front, c.isRetract = false)

include hfront

/-- Behind a retract, a move that positions the tool makes another one unnecessary. -/
theorem offsetSlot_of_isPositioning (hb : b.isRetract = true) (hmove : move.isPositioning = true) :
    offsetSlot (front ++ b :: move :: back) = none := by
  have hlifted : positionsLifted (front ++ b :: move :: back) = true := by
    rw [positionsLifted_append hfront, positionsLifted, List.findIdx?_cons, if_pos hb]
    simp [positionsFirst, hmove]
  rw [← Option.isNone_iff_eq_none, ← Option.not_isSome, isSome_offsetSlot,
    if_pos (any_isRetract_of_positionsLifted hlifted), hlifted]
  rfl

/-- Behind lines that do not lift the tool, there is a slot for relative coordinates unless the tool is lifted and
positioned there. -/
theorem isSome_offsetSlot_append (hoffsets : back.any Block.hasOffsets = true) :
    (offsetSlot (front ++ back)).isSome = !positionsLifted back := by
  have hlifted : positionsLifted (front ++ back) = positionsLifted back := positionsLifted_append hfront back
  rw [isSome_offsetSlot, hlifted]
  split
  · rfl
  · rename_i hretract
    have hany : (front ++ back).any Block.hasOffsets = true := by rw [List.any_append, hoffsets, Bool.or_true]
    cases hback : positionsLifted back with
    | false => exact hany
    | true => exact absurd (any_isRetract_of_positionsLifted (hlifted.trans hback)) hretract

end

/-- Another shift adds another move. The first move stands in front of coordinates, and what runs behind it does not
lift the tool and position it. -/
def movesAgain (lines : List (Block α)) : Bool :=
  (offsetSlot lines).any fun slot =>
    slot.selectsRelative && !positionsLifted ((lines.drop slot.line).map (Block.runUnder .rapid))

/-- If the tool is lifted somewhere, one move is enough. -/
theorem movesAgain_of_any_isRetract {lines : List (Block α)} (h : lines.any Block.isRetract = true) :
    movesAgain lines = false := by
  cases hslot : offsetSlot lines with
  | none => simp [movesAgain, hslot]
  | some slot =>
      rcases cases_of_offsetSlot hslot with ⟨hselects, -⟩ | ⟨-, hnone, -⟩
      · simp [movesAgain, hslot, hselects]
      · obtain ⟨b, hb, hretract⟩ := List.any_eq_true.mp h
        rw [hnone b hb] at hretract
        simp at hretract

/-- If the tool is never lifted and every line has a motion, each offset adds a move to relative coordinates. -/
theorem movesAgain_of_motion {lines : List (Block α)} (hretract : lines.any Block.isRetract = false)
    (hmotion : ∀ b ∈ lines, b.motion ≠ .unset) : movesAgain lines = lines.any Block.hasOffsets := by
  have hslots := isSome_offsetSlot lines
  rw [hretract, if_neg Bool.false_ne_true] at hslots
  rw [← hslots]
  cases hslot : offsetSlot lines with
  | none => simp [movesAgain, hslot]
  | some slot =>
      have hsame : (lines.drop slot.line).map (Block.runUnder .rapid) = lines.drop slot.line := by
        refine (List.map_congr_left fun b hb => ?_).trans (List.map_id _)
        rw [Block.runUnder, Motion.orElse_of_ne (hmotion b (List.mem_of_mem_drop hb))]
        rfl
      have hidle : positionsLifted (lines.drop slot.line) = false := by
        rw [← Bool.not_eq_true]
        intro hlifted
        obtain ⟨b, hb, hlift⟩ := List.any_eq_true.mp (any_isRetract_of_positionsLifted hlifted)
        exact absurd (List.any_eq_true.mpr ⟨b, List.mem_of_mem_drop hb, hlift⟩) (by simp [hretract])
      rcases cases_of_offsetSlot hslot with ⟨-, before, b, htake, -, hb⟩ | ⟨hselects, -⟩
      · have hmem : b ∈ lines := List.mem_of_mem_take (i := slot.line) (by simp [htake])
        exact absurd (List.any_eq_true.mpr ⟨b, hmem, hb⟩) (by simp [hretract])
      · rw [movesAgain, hslot, Option.any_some, hsame, hidle, hselects]
        rfl

/-! ### Shifted lines -/

variable [Scalar α] (delta : Point α) (pending : Pending)

namespace Block

/-- The line as a shift leaves it, and what is pending for the lines after it. -/
def shiftLine (b : Block α) : Pending × Block α := if b.isEditable then b.shifted delta pending else (pending, b)

variable {b : Block α}

theorem changesTo_shiftLine (b : Block α) : ChangesTo False b (b.shiftLine delta pending).2 := by
  rw [shiftLine]
  split
  · exact b.changesTo_shifted delta pending
  · exact .refl b

/-- Only lines with coordinates that may be edited are changed. -/
theorem changed_of_shiftLine (h : (b.shiftLine delta pending).2.modified = true) :
    b.modified = true ∨ b.isEditable = true ∧ b.hasCoordinates = true := by
  cases heditable : b.isEditable with
  | true => exact ((b.changesTo_shiftLine delta pending).changed h).imp_right fun hcoordinates => ⟨rfl, hcoordinates⟩
  | false => exact .inl (by simpa [shiftLine, heditable] using h)

theorem growsTo_shifted (b : Block α) : b.GrowsTo (b.shifted delta pending).2 := by
  have hedit := b.editOf_shifted delta pending
  have hmotion := ((b.changesTo_shifted delta pending).motion.eq_of_not_isArc False.elim).symm
  have hplane : (b.shifted delta pending).2.z = b.z ∧ (b.x.isSome = true → (b.shifted delta pending).2.x.isSome = true) ∧
      (b.y.isSome = true → (b.shifted delta pending).2.y.isSome = true) ∧
      ((b.shifted delta pending).2 = b ∨ b.hasXY = true) := by
    rw [shifted]
    split
    · split
      · rename_i hxy
        exact ⟨by simp [z], by simp [x, AxisWords.get_set_of_ne], by simp [y], .inr hxy⟩
      · exact ⟨rfl, id, id, .inl rfl⟩
    · split
      · rename_i hcarries
        simp only [carriesShift, Bool.and_eq_true] at hcarries
        refine ⟨?_, ?_, ?_, .inr hcarries.1.2⟩
        all_goals
          dsimp only [x, y, z]
          split <;> split <;> simp [AxisWords.get_set_of_ne]
      · exact ⟨rfl, id, id, .inl rfl⟩
  obtain ⟨hz, hx, hy, hxy⟩ := hplane
  refine ⟨hedit.isEditable, hedit.afterEnd, hedit.absolute, hmotion, ?_, hx, hy, congrArg Option.isSome hz⟩
  rcases hxy with hsame | hxy
  · rw [hsame]
  · have hgrown : (b.shifted delta pending).2.hasXY = true := by
      simp only [hasXY, Bool.or_eq_true] at hxy ⊢
      exact hxy.imp hx hy
    rw [hasCoordinates_of_hasXY hxy, hasCoordinates_of_hasXY hgrown]

theorem growsTo_shiftLine (b : Block α) : b.GrowsTo (b.shiftLine delta pending).2 := by
  rw [shiftLine]
  split
  · exact b.growsTo_shifted delta pending
  · exact .refl b

/-- A rapid move that takes over a shift leaves nothing pending. -/
theorem shiftLine_fst_of_takesShift (heditable : b.isEditable = true) (h : b.takesShift = true) :
    (b.shiftLine delta pending).1 = ⟨false, false⟩ := by
  obtain ⟨habsolute, hafter, hmotion, hxy⟩ := takesShift_iff.mp h
  rw [shiftLine, if_pos heditable, shifted, if_neg (by simp [habsolute])]
  split
  · rfl
  · rename_i hcarries
    obtain ⟨x, y⟩ := pending
    simpa [carriesShift, hafter, hmotion, hxy] using hcarries

/-- When nothing is pending any more, a line keeps the words that it has. -/
theorem shiftLine_of_idle (b : Block α) : (b.shiftLine delta ⟨false, false⟩).1 = ⟨false, false⟩ ∧
    b.LooksLike (b.shiftLine delta ⟨false, false⟩).2 := by
  have hgrows := b.growsTo_shiftLine delta ⟨false, false⟩
  have hidle : (b.shiftLine delta ⟨false, false⟩).1 = ⟨false, false⟩ ∧
      (b.shiftLine delta ⟨false, false⟩).2.x.isSome = b.x.isSome ∧
      (b.shiftLine delta ⟨false, false⟩).2.y.isSome = b.y.isSome := by
    rw [shiftLine]
    split
    · rw [shifted]
      split
      · split
        · exact ⟨by simp, by simp [x, AxisWords.get_set_of_ne], by simp [y]⟩
        · exact ⟨rfl, rfl, rfl⟩
      · rw [if_neg (by simp [carriesShift])]
        exact ⟨rfl, rfl, rfl⟩
    · exact ⟨rfl, rfl, rfl⟩
  obtain ⟨hpending, hx, hy⟩ := hidle
  exact ⟨hpending, hgrows, ⟨hgrows.editable.symm, hgrows.afterEnd.symm, hgrows.absolute.symm, hgrows.motion.symm,
    hgrows.coordinates.symm, fun h => hx ▸ h, fun h => hy ▸ h, hgrows.z.symm⟩⟩

end Block

/-- The lines behind the move that has taken over the shift. -/
theorem looksLike_pass_shiftLine (bs : List (Block α)) :
    List.Forall₂ Block.LooksLike bs (pass (Block.shiftLine delta) ⟨false, false⟩ bs).2 := by
  induction bs with
  | nil => exact .nil
  | cons b bs ih =>
      obtain ⟨hpending, hlooks⟩ := b.shiftLine_of_idle delta
      rw [pass_cons, hpending]
      exact .cons hlooks ih

theorem Program.lines_shiftLines (p : Program α) :
    (p.shiftLines delta).lines = (pass (Block.shiftLine delta) ⟨true, true⟩ p.lines).2 := by
  have hpass : ∀ (pending : Pending) (es : List (Entry α)),
      (pass (fun pending (e : Entry α) =>
        if e.line.isEditable then
          ((e.line.shifted delta pending).1, { e with line := (e.line.shifted delta pending).2 })
        else (pending, e)) pending es).2.map (·.line) =
      (pass (Block.shiftLine delta) pending (es.map (·.line))).2 := by
    intro pending es
    induction es generalizing pending with
    | nil => rfl
    | cons e es ih =>
        cases heditable : e.line.isEditable <;>
          simp [pass_cons, Block.shiftLine, heditable, ih]
  exact hpass _ _

end PartProgram
