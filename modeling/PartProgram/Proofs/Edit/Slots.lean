import PartProgram.Proofs.Edit.Modes
import PartProgram.Proofs.Program.Bounding
import PartProgram.Proofs.Program.Drawable

/-! # The slot for the move that carries a shift

The slot is found by one search over the lines, and the shift is taken over by the first relative rapid move
in another pass. Here both are compared: which cuts come after a line that carries the shift.
-/

namespace PartProgram

/-- A search that stops before an index finds something among the elements before it. -/
theorem any_findIdx?_lt {β : Type} (p : β → Bool) (xs : List β) (n : ℕ) :
    (xs.findIdx? p).any (fun i => decide (i < n)) = (xs.take n).any p := by
  induction xs generalizing n with
  | nil => simp
  | cons x xs ih =>
      cases n with
      | zero => simp
      | succ n =>
          rw [List.findIdx?_cons, List.take_succ_cons, List.any_cons, ← ih n]
          cases p x with
          | true => simp
          | false => cases xs.findIdx? p <;> simp

theorem modify_length_append_cons {β : Type} (f : β → β) (before after : List β) (x : β) :
    (before ++ x :: after).modify (before.length + 1) f = before ++ x :: after.modify 0 f := by
  induction before with
  | nil => rfl
  | cons b before ih => simp [ih]

variable {α : Type}

namespace Block

/-- A relative rapid move in the plane, before the end of the program. It takes over a shift that is pending. -/
def takesShift (b : Block α) : Bool := !b.absolute && b.carriesShift ⟨true, true⟩

theorem takesShift_iff {b : Block α} :
    b.takesShift = true ↔ b.absolute = false ∧ b.afterEnd = false ∧ b.motion = .rapid ∧ b.hasXY = true := by
  simp [takesShift, carriesShift, and_assoc]

theorem hasCoordinates_of_takesShift {b : Block α} (h : b.takesShift = true) : b.hasCoordinates = true :=
  hasCoordinates_of_hasXY (takesShift_iff.mp h).2.2.2

theorem isEngaged_of_takesShift {b : Block α} (h : b.takesShift = true) : b.motion.isEngaged = false := by
  rw [(takesShift_iff.mp h).2.2.1]
  rfl

theorem takesShift_of_isPositioning {b : Block α} (h : b.isPositioning = true) (habsolute : b.absolute = false)
    (hafter : b.afterEnd = false) : b.takesShift = true := by
  simp only [isPositioning, Bool.and_eq_true, beq_iff_eq] at h
  exact takesShift_iff.mpr ⟨habsolute, hafter, h.1.1, by rw [hasXY, h.1.2, Bool.true_or]⟩

theorem hasCoordinates_of_isPositioning {b : Block α} (h : b.isPositioning = true) : b.hasCoordinates = true := by
  simp only [isPositioning, Bool.and_eq_true] at h
  exact hasCoordinates_of_axis h.1.2

end Block

/-- A line before line `n` carries the shift: a rapid move of the program, or the move that is added. -/
def carriedBefore (lines : List (Block α)) (n : ℕ) : Bool :=
  (lines.take n).any Block.takesShift || (offsetSlot lines).any fun slot => decide (slot.line ≤ n)

/-- The cut on line `n` of a relative program is shifted. If the tool is lifted somewhere, the shift begins where
that, or a rapid move in the plane, has come first; otherwise it begins with the first coordinates. -/
def releasesShift (lines : List (Block α)) (n : ℕ) : Bool :=
  if lines.any Block.isRetract then (lines.take n).any Block.isRetract || (lines.take n).any Block.takesShift
  else (lines.take (n + 1)).any Block.hasCoordinates

/-- In a program in which the tool is never lifted, every cut in the plane is shifted. -/
theorem releasesShift_of_not_isRetract {lines : List (Block α)} (h : lines.any Block.isRetract = false) {n : ℕ}
    {b : Block α} (hb : lines[n]? = some b) (hxy : b.hasXY = true) : releasesShift lines n = true := by
  rw [releasesShift, if_neg (by simp [h]), List.any_eq_true]
  refine ⟨b, ?_, Block.hasCoordinates_of_hasXY hxy⟩
  rw [List.take_add_one, hb]
  simp

/-- Lines that position the tool before they cut do so before any line that cuts. -/
theorem exists_isPositioning_of_positionsFirst {lines : List (Block α)} (h : positionsFirst lines = true) {n : ℕ}
    {b : Block α} (hb : lines[n]? = some b) (hengaged : b.motion.isEngaged = true) :
    ∃ first ∈ lines.take n, first.isPositioning = true := by
  induction lines generalizing n with
  | nil => simp at hb
  | cons c lines ih =>
      rw [positionsFirst] at h
      split at h
      · rename_i hpositioning
        cases n with
        | zero =>
            -- a rapid move does not cut
            obtain rfl : c = b := by simpa using hb
            simp only [Block.isPositioning, Bool.and_eq_true, beq_iff_eq] at hpositioning
            rw [hpositioning.1.1] at hengaged
            simp [Motion.isEngaged] at hengaged
        | succ n => exact ⟨c, by simp, hpositioning⟩
      · split at h
        · simp at h
        · rename_i hidle
          cases n with
          | zero =>
              obtain rfl : c = b := by simpa using hb
              exact absurd hengaged hidle
          | succ n =>
              obtain ⟨first, hfirst, hpositioning⟩ := ih h (by simpa using hb)
              exact ⟨first, by simp [hfirst], hpositioning⟩

section

variable {lines : List (Block α)} (hrelative : ∀ b ∈ lines, b.hasCoordinates = true → b.absolute = false)
  (heditable : ∀ b ∈ lines, b.isEditable = true)
  (hended : lines.Pairwise fun b b' => b.afterEnd = true → b'.afterEnd = true) {n : ℕ} {b : Block α}
  (hb : lines[n]? = some b) (hafter : b.afterEnd = false) (hengaged : b.motion.isEngaged = true)

include hended hb hafter

theorem afterEnd_of_mem_take : ∀ c ∈ lines.take (n + 1), c.afterEnd = false := by
  intro c hc
  rw [List.take_add_one, hb] at hc
  rcases List.mem_append.mp hc with hc | hc
  · obtain ⟨hn, hget⟩ := List.getElem?_eq_some_iff.mp hb
    have hlater : b ∈ lines.drop n := by
      rw [List.drop_eq_getElem_cons hn, hget]
      exact List.mem_cons_self
    rw [← List.take_append_drop n lines, List.pairwise_append] at hended
    cases hc' : c.afterEnd with
    | false => rfl
    | true => rw [hended.2.2 c hc b hlater hc'] at hafter; simp at hafter
  · obtain rfl : c = b := by simpa using hc
    exact hafter

include hrelative

include hengaged in
/-- Lines after a retract that position the tool take over the shift before they cut. -/
theorem any_takesShift_of_positionsFirst {r : ℕ} (hr : r < n) (h : positionsFirst (lines.drop (r + 1)) = true) :
    (lines.take n).any Block.takesShift = true := by
  have hcut : (lines.drop (r + 1))[n - (r + 1)]? = some b := by
    rw [List.getElem?_drop, Nat.add_sub_cancel' hr, hb]
  obtain ⟨first, hfirst, hpositioning⟩ := exists_isPositioning_of_positionsFirst h hcut hengaged
  have hmem : first ∈ lines.take n := by
    rw [← List.drop_take] at hfirst
    exact List.mem_of_mem_drop hfirst
  have habsolute : first.absolute = false :=
    hrelative first (List.mem_of_mem_take hmem) (Block.hasCoordinates_of_isPositioning hpositioning)
  have hfirst_after : first.afterEnd = false :=
    afterEnd_of_mem_take hended hb hafter first (List.take_subset_take_left lines (Nat.le_succ n) hmem)
  exact List.any_eq_true.mpr ⟨first, hmem, Block.takesShift_of_isPositioning hpositioning habsolute hfirst_after⟩

include heditable

/-- Up to a line before the end of the program, the coordinates are those that the search for a slot looks at. -/
theorem any_hasCoordinates_take :
    (lines.take (n + 1)).any (fun c => c.mayShift && !c.absolute && c.hasCoordinates) =
      (lines.take (n + 1)).any Block.hasCoordinates := by
  rw [Bool.eq_iff_iff, List.any_eq_true, List.any_eq_true]
  refine exists_congr fun c => and_congr_right fun hc => ?_
  have hmem : c ∈ lines := List.mem_of_mem_take hc
  have hmay : c.mayShift = true := by
    rw [Block.mayShift, heditable c hmem, afterEnd_of_mem_take hended hb hafter c hc]
    rfl
  simpa [hmay] using hrelative c hmem

include hengaged

/-- The search for the slot and the pass that shifts the lines agree on every cut. -/
theorem carriedBefore_eq_releasesShift : carriedBefore lines n = releasesShift lines n := by
  rw [carriedBefore, releasesShift, offsetSlot]
  cases hretract : lines.findIdx? Block.isRetract with
  | some r =>
      have hlifted : (lines.take n).any Block.isRetract = decide (r < n) := by
        rw [← any_findIdx?_lt, hretract]
        rfl
      have hany : lines.any Block.isRetract = true := by
        obtain ⟨before, c, after, rfl, -, hc⟩ := exists_of_findIdx? hretract
        simp [hc]
      rw [if_pos hany, hlifted, Bool.or_comm]
      dsimp only
      split
      · rename_i hpositions
        by_cases hr : r < n
        · rw [any_takesShift_of_positionsFirst hrelative hended hb hafter hengaged hr hpositions]
          simp
        · simp [hr]
      · rfl
  | none =>
      have hnone : lines.any Block.isRetract = false := by
        rw [List.findIdx?_eq_none_iff] at hretract
        simpa using hretract
      have hslot : ((lines.findIdx? fun c => c.mayShift && !c.absolute && c.hasCoordinates).map
          (OffsetSlot.mk · true)).any (fun slot => decide (slot.line ≤ n)) =
          (lines.take (n + 1)).any Block.hasCoordinates := by
        rw [← any_hasCoordinates_take hrelative heditable hended hb hafter, ← any_findIdx?_lt, Option.any_map]
        exact congrArg (Option.any · _) (funext fun i => decide_eq_decide.mpr Nat.lt_succ_iff.symm)
      rw [if_neg (by simp [hnone]), hslot, Bool.or_eq_right_iff_imp]
      -- a line that takes over the shift has coordinates
      intro htakes
      obtain ⟨c, hc, htakes⟩ := List.any_eq_true.mp htakes
      have hmem : c ∈ lines.take (n + 1) := List.take_subset_take_left lines (Nat.le_succ n) hc
      exact List.any_eq_true.mpr ⟨c, hmem, Block.hasCoordinates_of_takesShift htakes⟩

end

/-! ### The line that is added -/

/-- What stands before the slot: a retract comes last, or no line has coordinates that a shift could concern. -/
theorem offsetSlot_take {lines : List (Block α)} {slot : OffsetSlot} (h : offsetSlot lines = some slot) :
    slot.line ≤ lines.length ∧
      ((∃ before b, lines.take slot.line = before ++ [b] ∧ b.isRetract = true) ∨
        ∀ b ∈ lines.take slot.line, (b.mayShift && !b.absolute && b.hasCoordinates) = false) := by
  rw [offsetSlot] at h
  split at h
  · rename_i r hr
    obtain ⟨before, b, after, rfl, rfl, hb⟩ := exists_of_findIdx? hr
    split at h
    · simp at h
    · obtain rfl : (⟨before.length + 1, false⟩ : OffsetSlot) = slot := by simpa using h
      refine ⟨by simp, .inl ⟨before, b, ?_, hb⟩⟩
      rw [List.append_cons]
      exact List.take_left' (by simp)
  · obtain ⟨n, hn, rfl⟩ := Option.map_eq_some_iff.mp h
    obtain ⟨hlength, -, hbefore⟩ := List.findIdx?_eq_some_iff_getElem.mp hn
    refine ⟨hlength.le, .inr fun b hb => ?_⟩
    obtain ⟨k, hk, rfl⟩ := List.mem_take_iff_getElem.mp hb
    simpa using hbefore k (lt_of_lt_of_le hk (min_le_left _ _))

/-- The second block is the first one, possibly marked as changed. -/
def Block.MarkedAs (b b' : Block α) : Prop := b' = b ∨ b' = { b with modified := true }

theorem Block.MarkedAs.edit {b b' : Block α} (h : b.MarkedAs b') : b.EditOf b' := by
  rcases h with rfl | rfl
  · exact .refl b'
  · exact b.editOf_modified

variable [Scalar α]

/-- A mark does not touch the words of a line. -/
theorem Block.MarkedAs.same {b b' : Block α} (h : b.MarkedAs b') :
    b'.motion = b.motion ∧ b'.axes = b.axes ∧ b'.i = b.i ∧ b'.j = b.j ∧ b'.absolute = b.absolute ∧
      b'.takesShift = b.takesShift ∧ ∀ machine p, b'.targetFrom machine p = b.targetFrom machine p := by
  rcases h with rfl | rfl <;> exact ⟨rfl, rfl, rfl, rfl, rfl, rfl, fun _ _ => rfl⟩

/-- The lines behind the move for the slot. If the move selects relative distances, the first of them is marked. -/
def OffsetSlot.marked (slot : OffsetSlot) (bs : List (Block α)) : List (Block α) :=
  if slot.selectsRelative then bs.modify 0 fun b => { b with modified := true } else bs

/-- The lines of a program with relative distances and the move for its slot. -/
theorem Program.lines_withOffsetMove {p : Program α} (hcontains : p.containsRelative = true) {slot : OffsetSlot}
    (hslot : offsetSlot p.lines = some slot) (comment : String) :
    ∃ feed spindle, (p.withOffsetMove comment).lines =
      p.lines.take slot.line ++ offsetMove slot comment feed spindle :: slot.marked (p.lines.drop slot.line) := by
  obtain ⟨hlength, -⟩ := offsetSlot_take hslot
  have hinsert : ∀ move : Block α, (p.insertLine slot.line move).lines =
      p.lines.take slot.line ++ move :: p.lines.drop slot.line := by
    intro move
    have hmove := insertIdx_length_append (p.lines.take slot.line) (p.lines.drop slot.line) move
    rw [List.take_append_drop, List.length_take_of_le hlength] at hmove
    rw [lines_insertLine, Nat.min_eq_left hlength, hmove]
  simp only [withOffsetMove, hcontains, if_true, hslot, OffsetSlot.marked]
  set before := p.lines[(slot.line - 1).min (p.lines.length - 1)]?
  refine ⟨before.elim 0 (·.feed), before.elim 0 (·.spindle), ?_⟩
  split
  · have hmark := modify_length_append_cons (fun b : Block α => { b with modified := true })
      (p.lines.take slot.line) (p.lines.drop slot.line)
    rw [List.length_take_of_le hlength] at hmark
    rw [lines_modify _ _ fun b => { b with modified := true }, hinsert, hmark]
  · exact hinsert _

omit [Scalar α] in
theorem OffsetSlot.markedAs_marked (slot : OffsetSlot) (bs : List (Block α)) :
    List.Forall₂ Block.MarkedAs bs (slot.marked bs) := by
  rw [marked]
  split
  · cases bs with
    | nil => exact .nil
    | cons b bs => exact .cons (.inr rfl) (List.forall₂_same.mpr fun b _ => .inl rfl)
  · exact List.forall₂_same.mpr fun b _ => .inl rfl

theorem Program.exists_lines_withOffsetMove {p : Program α} (hcontains : p.containsRelative = true) {slot : OffsetSlot}
    (hslot : offsetSlot p.lines = some slot) (comment : String) :
    ∃ feed spindle after, List.Forall₂ Block.MarkedAs (p.lines.drop slot.line) after ∧
      (p.withOffsetMove comment).lines =
        p.lines.take slot.line ++ offsetMove slot comment feed spindle :: after := by
  obtain ⟨feed, spindle, hlines⟩ := lines_withOffsetMove hcontains hslot comment
  exact ⟨feed, spindle, _, slot.markedAs_marked _, hlines⟩

/-! ### The pen at the slot -/

/-- No figure is under way whose start is in the extent. -/
def Tool.IsLifted (t : Tool α) : Prop := t.startPending = false → t.penDown = false

namespace Tool.IsLifted

variable {t : Tool α} {machine : Machine α}

theorem step (h : t.IsLifted) {b : Block α} (hbounded : b.isBounded = false) : (t.step machine b).1.IsLifted := by
  have hcut : b.isDrawable = true → (b.motion.isEngaged && b.hasXY) = false := by
    intro hdrawable
    simpa [Block.isBounded, hdrawable] using hbounded
  intro hstart
  rw [t.startPending_step machine hcut, Bool.or_eq_false_iff] at hstart
  obtain ⟨hbefore, hbegun⟩ := hstart
  cases hdrawable : b.isDrawable with
  | false => rw [t.penDown_step_of_not_isDrawable machine hdrawable, h hbefore]
  | true =>
      -- the pen was up, and so a cut would have begun a figure
      rw [t.penDown_step machine hdrawable]
      simpa [hdrawable, h hbefore] using hbegun

theorem pass (h : t.IsLifted) {bs : List (Block α)} (hbounded : ∀ b ∈ bs, b.isBounded = false) :
    (PartProgram.pass (Tool.step machine) t bs).1.IsLifted := by
  induction bs generalizing t with
  | nil => exact h
  | cons b bs ih =>
      rw [pass_cons]
      exact ih (h.step (hbounded b (by simp))) fun b hb => hbounded b (by simp [hb])

end Tool.IsLifted

/-- At the slot, no figure is under way whose start is in the extent. -/
theorem isLifted_at_slot {lines : List (Block α)} (heditable : ∀ b ∈ lines, b.isEditable = true)
    (hrelative : ∀ b ∈ lines, b.hasCoordinates = true → b.absolute = false) {slot : OffsetSlot}
    (hslot : offsetSlot lines = some slot) (machine : Machine α) :
    (pass (Tool.step machine) (.atStart machine) (lines.take slot.line)).1.IsLifted := by
  obtain ⟨-, ⟨before, b, htake, hb⟩ | hnone⟩ := offsetSlot_take hslot
  · rw [htake, pass_append, pass_cons, pass_nil]
    simp only [Block.isRetract, Block.mayShift, Block.isEditable, Bool.and_eq_true, Bool.not_eq_true',
      Bool.or_eq_false_iff, beq_iff_eq] at hb
    obtain ⟨⟨⟨⟨⟨⟨hframe, hhidden⟩, -⟩, hafter⟩, -⟩, hrapid⟩, -⟩ := hb
    have hdrawable : b.isDrawable = true := by
      rw [Block.isDrawable, hframe, hhidden, hafter]
      rfl
    intro _
    rw [Tool.penDown_step _ _ hdrawable, hrapid]
    rfl
  · refine Tool.IsLifted.pass (fun _ => rfl) fun b hb => ?_
    have hmem : b ∈ lines := List.mem_of_mem_take hb
    have hidle := hnone b hb
    by_contra hbounded
    rw [Bool.not_eq_false, Block.isBounded, Bool.and_eq_true, Bool.and_eq_true] at hbounded
    obtain ⟨⟨hdrawable, -⟩, hxy⟩ := hbounded
    have hcoordinates := Block.hasCoordinates_of_hasXY hxy
    simp only [Block.isDrawable, Bool.not_eq_true', Bool.or_eq_false_iff] at hdrawable
    rw [Block.mayShift, heditable b hmem, hdrawable.2, hrelative b hmem hcoordinates, hcoordinates] at hidle
    simp at hidle

end PartProgram
