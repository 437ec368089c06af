import PartProgram.Proofs.Edit.Chain

/-! # Modes under an edit

An edit leaves the modes of a line alone, except that a mirror turns the arcs that it changes. So
edited lines still follow each other, and so do the lines around the move that an offset adds.
-/

namespace PartProgram

open Word (latest)

variable {α : Type}

/-- The same modes, up to the sense of arcs. -/
structure Carried.Like (flips : Prop) (c c' : Carried α) : Prop where
  motion : c.motion.Like flips c'.motion
  absolute : c.absolute = c'.absolute
  feed : c.feed = c'.feed
  spindle : c.spindle = c'.spindle
  ended : c.ended = c'.ended

@[simp]
theorem AxisWords.get_z_set_x (words : AxisWords α) (v : Option α) :
    (words.set .x v).get .z = words.get .z := words.get_set_of_ne v (by decide)

@[simp]
theorem AxisWords.get_z_set_y (words : AxisWords α) (v : Option α) :
    (words.set .y v).get .z = words.get .z := words.get_set_of_ne v (by decide)

namespace Block

/-- The edit that makes the second block of the first keeps its modes, up to the sense of an arc, and
it changes blocks with coordinates only. -/
structure ChangesTo (flips : Prop) (b b' : Block α) : Prop where
  edit : b.EditOf b'
  motion : b.motion.Like flips b'.motion
  z : b.z = none → b'.z = none
  changed : b'.modified = true → b.modified = true ∨ b.hasCoordinates = true
  unchanged : flips → b'.modified = false → b'.hasCoordinates = true → b'.motion.isArc = false

variable {flips : Prop}

theorem ChangesTo.refl (b : Block α) : ChangesTo False b b :=
  ⟨.refl b, .refl _, id, .inl, False.elim⟩

theorem hasCoordinates_of_axis {b : Block α} {axis : Axis} (h : (b.axes.get axis).isSome) :
    b.hasCoordinates = true := by
  have hany : b.axes.any = true := List.any_eq_true.mpr ⟨axis, axis.mem_all, h⟩
  simp [hasCoordinates, hany]

theorem hasCoordinates_of_hasXY {b : Block α} (h : b.hasXY = true) : b.hasCoordinates = true := by
  simp only [hasXY, Bool.or_eq_true] at h
  rcases h with h | h
  · exact hasCoordinates_of_axis h
  · exact hasCoordinates_of_axis h

theorem hasCoordinates_of_writesPlane {b : Block α} (h : b.writesPlane = true) :
    b.hasCoordinates = true := by
  simp only [writesPlane, Bool.or_eq_true] at h
  rcases h with (h | h) | h
  · exact hasCoordinates_of_hasXY h
  · simp [hasCoordinates, h]
  · simp [hasCoordinates, h]

theorem changesTo_withoutZ (b : Block α) : ChangesTo False b b.withoutZ := by
  rw [withoutZ]
  split
  · rename_i hz
    exact ⟨b.editOf_withAxis .z none, .refl _, fun _ => by simp [withAxis, z],
      fun _ => .inr (hasCoordinates_of_axis hz), False.elim⟩
  · exact .refl b

variable [Scalar α]

theorem changesTo_mirrored (m : MirrorAxis) (sum : α) (b : Block α) :
    ChangesTo True b (b.mirrored m sum) := by
  refine ⟨b.editOf_mirrored m sum, ?_, ?_, ?_, ?_⟩
  · rw [mirrored]
    split
    · exact .inr ⟨trivial, by simp⟩
    · exact .refl _
  · rw [mirrored]
    split
    · have hz : Axis.z ≠ m.axis := by cases m <;> decide
      intro h
      exact (AxisWords.get_set_of_ne b.axes _ hz).trans h
    · exact id
  · rw [mirrored]
    split
    · rename_i h
      intro _
      right
      simp only [isMirrored, Bool.or_eq_true, Bool.and_eq_true] at h
      rcases h with (h | h) | h
      · exact hasCoordinates_of_axis h
      · cases m <;> simp_all [mirrorOffset, hasCoordinates]
      · exact h.2
    · exact .inl
  · rw [mirrored]
    split
    · simp
    · rename_i h
      intro _ _ hcoordinates
      simp only [isMirrored, hcoordinates, Bool.and_true, Bool.or_eq_true, not_or] at h
      simpa using h.2

theorem changesTo_stretched (fx fy : α) (b : Block α) : ChangesTo False b (b.stretched fx fy) := by
  refine ⟨b.editOf_stretched fx fy, ?_, ?_, ?_, False.elim⟩
  · rw [stretched]
    split <;> exact .refl _
  · rw [stretched]
    split
    · simp [z]
    · exact id
  · rw [stretched]
    split
    · rename_i h
      exact fun _ => .inr (hasCoordinates_of_writesPlane h)
    · exact .inl

theorem changesTo_turned (s : Similarity α) (b : Block α) (copies : List (Point α)) :
    ChangesTo False b (b.turned s copies) := by
  refine ⟨b.editOf_turned s copies, ?_, ?_, ?_, False.elim⟩
  · simp only [turned]
    split
    · split <;> exact .refl _
    · exact .refl _
  · intro h
    have hz : (b.turned s copies).axes.get .z = b.axes.get .z := by
      rw [turned_axes, z_turnedAxes]
    exact hz.trans h
  · simp only [turned]
    split
    · rename_i h
      exact fun _ => .inr (hasCoordinates_of_writesPlane h)
    · exact .inl

theorem changesTo_shifted (delta : Point α) (pending : Pending) (b : Block α) :
    ChangesTo False b (b.shifted delta pending).2 := by
  refine ⟨b.editOf_shifted delta pending, ?_, ?_, ?_, False.elim⟩
  · rw [shifted]
    split
    · split <;> exact .refl _
    · split <;> exact .refl _
  · rw [shifted]
    split
    · split
      · simp [z]
      · exact id
    · split
      · dsimp only [z]
        split <;> split <;> simp
      · exact id
  · rw [shifted]
    split
    · split
      · rename_i h
        exact fun _ => .inr (hasCoordinates_of_hasXY h)
      · exact .inl
    · split
      · rename_i h
        simp only [carriesShift, Bool.and_eq_true] at h
        exact fun _ => .inr (hasCoordinates_of_hasXY h.1.2)
      · exact .inl

/-! ### Chains -/

variable {flips : Prop} {b b' : Block α} {c c' : Carried α}

theorem ChangesTo.follows (h : b.ChangesTo flips b') (hb : b.Follows False c) (hc : c.Like flips c')
    (hmotion : b.modified = true ∨ b.hasCoordinates = true → b.motion ≠ .unset) :
    b'.Follows flips c' := by
  refine ⟨?_, ?_, ?_, ?_, ?_, ?_⟩
  · rw [h.edit.absolute, h.edit.text, ← hc.absolute]
    exact hb.absolute
  · rw [h.edit.afterEnd, ← hc.ended]
    rcases hb.ended with hended | ⟨hended, hrapid, hz⟩
    · exact .inl hended
    · have hsame : b.motion = b'.motion :=
        (h.motion.symm.eq_of_not_isArc fun _ => by simp [hrapid, Motion.isArc, Motion.winding?]).symm
      exact .inr ⟨hended, hsame ▸ hrapid, h.z hz⟩
  · intro hm
    obtain ⟨hbm, hsame, -⟩ := h.edit.same hm
    have hlatest : latest (Word.motion? α) c.motion (wordsOf b.text) = b.motion :=
      (hb.motion hbm).eq_of_not_isArc False.elim
    rw [hsame, h.edit.text, ← hlatest]
    exact hc.motion.symm.latest _ _
  · intro hm
    rw [h.edit.feed, h.edit.text, ← hc.feed]
    exact hb.feed (h.edit.same hm).1
  · intro hm
    rw [h.edit.spindle, h.edit.text, ← hc.spindle]
    exact hb.spindle (h.edit.same hm).1
  · intro hm hunset
    have hset := hmotion (h.changed hm)
    rcases h.motion with heq | ⟨-, heq⟩
    · exact hset (heq.trans hunset)
    · rw [hunset] at heq
      exact hset heq

omit [Scalar α] in
theorem ChangesTo.leaves (h : b.ChangesTo flips b') (hc : c.Like flips c') :
    (b.leaves c).Like flips (b'.leaves c') :=
  ⟨h.motion, h.edit.absolute.symm, h.edit.feed.symm, h.edit.spindle.symm, by
    rw [Block.leaves, Block.leaves, hc.ended, h.edit.programEnd]⟩

end Block

variable [Scalar α]

theorem Chained.changes {flips : Prop} {bs bs' : List (Block α)} {c c' : Carried α} (h : Chained False c bs)
    (hchanges : List.Forall₂ (Block.ChangesTo flips) bs bs') (hc : c.Like flips c')
    (hmotion : ∀ b ∈ bs, b.modified = true ∨ b.hasCoordinates = true → b.motion ≠ .unset) :
    Chained flips c' bs' := by
  induction hchanges generalizing c c' with
  | nil => trivial
  | cons hb _ ih =>
      exact ⟨hb.follows h.1 hc (hmotion _ (by simp)),
        ih h.2 (hb.leaves hc) fun b hb => hmotion b (by simp [hb])⟩

/-- The edit turns the sense of arcs. -/
def Edit.Flips : Edit α → Prop
  | .mirror _ => True
  | _ => False

/-- Every edit but an offset changes the lines one by one. -/
theorem Edit.changes {edit : Edit α} (h : ∀ anchor extra, edit ≠ .offset anchor extra) {p : Program α}
    (heditable : ∀ b ∈ p.lines, b.isEditable = true) (settings : Settings α) :
    List.Forall₂ (Block.ChangesTo edit.Flips) p.lines (edit.change p settings).lines := by
  have hlines : ∀ {flips : Prop} {f : Block α → Block α}, (∀ b, Block.ChangesTo flips b (f b)) →
      List.Forall₂ (Block.ChangesTo flips) p.lines (p.editLines f).lines := by
    intro flips f hf
    apply p.forall₂_editLines
    intro b hb
    rw [if_pos (heditable b hb)]
    exact hf b
  cases edit with
  | mirror axis => exact hlines (Block.changesTo_mirrored axis _)
  | turn similarity =>
      exact p.forall₂_turn similarity .refl fun b copies _ => Block.changesTo_turned similarity b copies
  | stretch x y => exact hlines (Block.changesTo_stretched _ _)
  | offset anchor extra => exact absurd rfl (h anchor extra)
  | dropZ => exact hlines Block.changesTo_withoutZ
  | follow surface => exact List.forall₂_same.mpr fun b _ => .refl b

/-! ### The move that an offset adds -/

section

variable {α : Type} [Field α] [LinearOrder α] [IsStrictOrderedRing α] [FloorRing α] [PlaneFunctions α]

/-- The words of the move for a slot. -/
def OffsetSlot.words (slot : OffsetSlot) : List Word :=
  let move : List Word := [⟨'G', ['0']⟩, ⟨'X', ['0']⟩, ⟨'Y', ['0']⟩]
  if slot.selectsRelative then ⟨'G', ['9', '1']⟩ :: move else move

/-- The comment adds no words to the move. -/
def IsSilent (comment : String) : Prop :=
  ∀ slot : OffsetSlot,
    wordsOf ((if slot.selectsRelative then "G91 G0 X0 Y0 " else "G0 X0 Y0 ") ++ comment) = slot.words

theorem isSilent_default : IsSilent "(offset move)" := by
  intro slot
  rw [OffsetSlot.words]
  cases slot.selectsRelative <;> decide

omit [IsStrictOrderedRing α] in
theorem text_offsetMove (slot : OffsetSlot) (comment : String) (feed spindle : α) :
    (offsetMove slot comment feed spindle).text =
      (if slot.selectsRelative then "G91 G0 X0 Y0 " else "G0 X0 Y0 ") ++ comment := by
  simp [offsetMove, Block.read_snd, Block.inert]

/-- What the words of the move select. -/
theorem latest_words (slot : OffsetSlot) :
    (∀ m, latest (Word.motion? α) m slot.words = .rapid) ∧
      (∀ a, latest (Word.distance? α) a slot.words = (!slot.selectsRelative && a)) ∧
      (∀ v : α, latest Word.feed? v slot.words = v) ∧ (∀ v : α, latest Word.spindle? v slot.words = v) ∧
      latest (Word.written? α 'Z') none slot.words = none ∧
      slot.words.any (Word.isMachineFrame α) = false ∧ slot.words.foldl (Word.steer α) {} = {} := by
  have hrapid : (⟨'G', ['0']⟩ : Word).code? α = some 0 := code?_toDigits (n := 0) (by decide) 'G'
  have hrelative : (⟨'G', ['9', '1']⟩ : Word).code? α = some 91 :=
    code?_toDigits (n := 91) (by decide) 'G'
  rw [OffsetSlot.words]
  cases slot.selectsRelative <;>
    simp [Word.motion?, Word.distance?, Word.feed?, Word.spindle?, Word.written?, Word.isMachineFrame,
      Word.steer, hrapid, hrelative, Motion.ofCode?]

/-- The move is a rapid one in relative distances that keeps the speeds. -/
theorem offsetMove_modes {comment : String} (hcomment : IsSilent comment) (slot : OffsetSlot) (feed spindle : α) :
    let b := offsetMove slot comment feed spindle
    b.motion = .rapid ∧ b.absolute = false ∧ b.feed = feed ∧ b.spindle = spindle ∧ b.z = none ∧
      b.machineFrame = false ∧ b.call = none ∧ b.programEnd = false ∧ b.hidden = false ∧
      b.afterEnd = false ∧ b.modified = true := by
  obtain ⟨hmotion, hdistance, hfeed, hspindle, hz, hframe, hsteer⟩ := latest_words (α := α) slot
  have hwords := hcomment slot
  simp only [offsetMove, Block.read_snd, Block.inert, Modal.after, LineWords.foldl_add, Block.z,
    LineCodes.ofLine_eq, hwords, hmotion, hdistance, hfeed, hspindle, hframe, hsteer]
  simpa [LineCodes.call?, Axis.letter] using hz

omit [IsStrictOrderedRing α] in
/-- The move goes nowhere. -/
theorem offsetMove_xy {comment : String} (hcomment : IsSilent comment) (slot : OffsetSlot) (feed spindle : α) :
    let b := offsetMove slot comment feed spindle
    b.x = some 0 ∧ b.y = some 0 ∧ b.footer = false := by
  have hzero : ∀ letter, (⟨letter, ['0']⟩ : Word).number? = some (0 : α) := by
    intro letter
    have hread : Decimal.read? ['0'] = some ⟨false, 0, 0⟩ := by decide
    simp [Word.number?, hread, Scalar.ofDecimal, Scalar.isFinite, Decimal.value]
  have hwords := hcomment slot
  simp only [offsetMove, Block.read_snd, Block.inert, LineWords.foldl_add, Block.x, Block.y, hwords, Axis.letter,
    OffsetSlot.words]
  cases slot.selectsRelative <;> simp [Word.written?, hzero]

theorem follows_offsetMove (slot : OffsetSlot) (feed spindle : α) {c : Carried α}
    (h : slot.selectsRelative = true ∨ c.absolute = false) :
    (offsetMove slot "(offset move)" feed spindle).Follows False c := by
  obtain ⟨hmotion, habsolute, -, -, hz, -, -, -, -, hafter, hmodified⟩ := offsetMove_modes isSilent_default slot feed spindle
  have hunmodified : (offsetMove slot "(offset move)" feed spindle).modified ≠ false := by simp [hmodified]
  refine ⟨?_, .inr ⟨hafter, hmotion, hz⟩, fun hm => absurd hm hunmodified,
    fun hm => absurd hm hunmodified, fun hm => absurd hm hunmodified, ?_⟩
  · rw [habsolute, text_offsetMove, isSilent_default slot, (latest_words slot).2.1]
    rcases h with h | h <;> simp [h]
  · simp [hmotion]

theorem leaves_offsetMove (slot : OffsetSlot) (feed spindle : α) (c : Carried α) :
    (offsetMove slot "(offset move)" feed spindle).leaves c = ⟨.rapid, false, feed, spindle, c.ended⟩ := by
  obtain ⟨hmotion, habsolute, hfeed, hspindle, -, -, -, hend, -⟩ := offsetMove_modes isSilent_default slot feed spindle
  simp [Block.leaves, hmotion, habsolute, hfeed, hspindle, hend]

/-- With the move added, the lines still follow each other. -/
theorem Chained.withMove {bs bs' : List (Block α)} {c : Carried α} (h : Chained False c bs)
    (hmove : WithMove "(offset move)" bs bs')
    (hmotion : ∀ b ∈ bs, b.hasCoordinates = true → b.motion ≠ .unset) : Chained False c bs' := by
  cases hmove with
  | unchanged => exact h
  | afterRetract before b after hb =>
      simp only [Block.isRetract, Bool.and_eq_true, Bool.not_eq_true', beq_iff_eq] at hb
      obtain ⟨⟨⟨-, habsolute⟩, hrapid⟩, -⟩ := hb
      rw [chained_append] at h ⊢
      obtain ⟨hbefore, hb, hafter⟩ := h
      refine ⟨hbefore, hb, follows_offsetMove _ _ _ (.inr habsolute), ?_⟩
      -- The move leaves what the retract has left.
      rw [leaves_offsetMove]
      rw [Block.leaves, hrapid, habsolute] at hafter
      rwa [Block.leaves]
  | atCoordinates before b after habsolute hb =>
      rw [chained_append] at h ⊢
      obtain ⟨hbefore, hfollows, hafter⟩ := h
      refine ⟨hbefore, follows_offsetMove _ _ _ (.inl rfl), ?_⟩
      rw [leaves_offsetMove]
      refine ⟨⟨?_, hfollows.ended, by simp, by simp, by simp, fun _ => hmotion b (by simp) hb⟩, hafter⟩
      -- Words that lead to relative distances from anywhere do so from relative distances.
      have hrelative := hfollows.absolute
      rw [habsolute] at hrelative
      change b.absolute = latest (Word.distance? α) false (wordsOf b.text)
      rw [habsolute, hrelative, Word.latest_latest]

end

end PartProgram
