import PartProgram.Proofs.Edit.Cutting
import PartProgram.Proofs.Edit.Meaning
import PartProgram.Proofs.Program.Drawable

/-! # Programs without calls

A program that follows a surface is written without calls: a line that calls gives way to a comment and to
the lines that it runs. Each of them is cut into pieces, and these get new words for Z.
-/

namespace PartProgram

/-! ### The lines that are written -/

section

variable {α : Type} [Scalar α]

/-- The second block is the first one with another Z. A block that does not move is not marked. -/
structure Block.Raised (b q : Block α) : Prop where
  edit : b.EditOf q
  motion : q.motion = b.motion
  i : q.i = b.i
  j : q.j = b.j
  axes : ∀ d : PathAxis, d ≠ .z → q.axes.get d.axis = b.axes.get d.axis
  idle : b.hasXY = false → b.z = none → q.modified = b.modified

namespace Block

variable {b q : Block α}

/-- Correcting a block that has been placed. -/
theorem raised_followStep (h : q.unplaced = b.unplaced) (surface : Surface α) (places : ℕ) (z : α) :
    b.Raised (followStep surface places z q).2 := by
  have heq : q = { b with place := q.place } := by
    cases q
    cases b
    simp_all [unplaced]
  have hplaced : b.EditOf q := heq ▸ b.editOf_place q.place
  have haxes : q.axes = b.axes := by rw [heq]
  rw [followStep]
  split
  · rw [heq]
    exact ⟨b.editOf_place _, rfl, rfl, rfl, fun _ _ => rfl, fun _ _ => rfl⟩
  · rename_i height hcorrection
    refine ⟨hplaced.trans (editOf_withAxis _ _ _), by rw [heq]; rfl, by rw [heq]; rfl, by rw [heq]; rfl, ?_, ?_⟩
    · intro d hd
      rw [← haxes]
      refine AxisWords.get_set_of_ne _ _ ?_
      cases d <;> simp [PathAxis.axis] at hd ⊢
    · intro hxy hz
      have hidle : (q.hasXY || q.z.isSome) = false := by
        simp only [hasXY, x, y, Block.z, haxes] at hxy hz ⊢
        rw [hxy, hz]
        rfl
      rw [correction, Bool.and_comm, hidle] at hcorrection
      simp at hcorrection

end Block

namespace Program

variable (p : Program α)

/-- The blocks of the new program are those of the program without calls, cut into pieces and raised. -/
theorem forall₂_following (surface : Surface α) (places : ℕ) (machine : Machine α) :
    List.Forall₂ Block.Raised
      (p.flattened.flatMap (Block.linearized surface.cellSize (some surface.cellSize) places))
      (p.following surface places machine) := by
  have hplaced : ∀ blocks : List (Block α),
      List.Forall₂ (fun b q => q.unplaced = b.unplaced) blocks (ofBlocks blocks machine).lines := by
    intro blocks
    have hlines := lines_place
      { (empty : Program α) with
        entries := blocks.map .ofLine
        containsArcs := blocks.any (·.motion.isArc)
        containsRelative := blocks.any (!·.absolute) } machine
    have hmap : (ofBlocks blocks machine).lines.map Block.unplaced = blocks.map Block.unplaced := by
      refine hlines.trans ?_
      simp [lines, Entry.ofLine, Function.comp_def]
    have hsame : List.Forall₂ Eq ((ofBlocks blocks machine).lines.map Block.unplaced)
        (blocks.map Block.unplaced) := hmap ▸ List.forall₂_eq_eq_eq ▸ rfl
    rw [List.forall₂_map_left_iff, List.forall₂_map_right_iff] at hsame
    exact hsame.flip
  exact forall₂_pass_of_forall₂ (fun z _ _ h => Block.raised_followStep h surface places z) _ (hplaced _)

/-- Following a surface gives the listing of the lines that follow it, also without any. -/
theorem apply_follow_snd (surface : Surface α) (settings : Settings α) (machine : Machine α) :
    ((Edit.follow surface).apply p settings machine).2 =
      listing settings.format (p.following surface settings.format.decimalPlaces machine) := by
  rw [Edit.apply]
  split
  · rename_i hempty
    have hflat : p.flattened = [] := by rw [flattened, List.isEmpty_iff.mp hempty, List.flatMap_nil]
    have hraised := p.forall₂_following surface settings.format.decimalPlaces machine
    rw [hflat, List.flatMap_nil, List.forall₂_nil_left_iff] at hraised
    rw [hraised]
    rfl
  · rfl

/-- Calls and lines after the end of the program are blanked out, also among the copies. -/
theorem flattened_ofLines (lines : List String) (settings : Settings α) (machine : Machine α) :
    (ofLines lines settings machine).flattened = (ofLines lines settings machine).executed.map flattenLine := by
  rw [flattened, executed, List.map_flatMap]
  apply List.flatMap_congr
  intro e he
  rw [Entry.executed, List.map_cons, List.map_map]
  congr 1
  apply List.map_congr_left
  intro c hc
  obtain ⟨hafterEnd, -⟩ := exists_read_of_mem_copies he hc
  simp only [Function.comp_apply, flattenLine, flattenCopy, hafterEnd, Bool.false_eq_true, if_false]

end Program

/-! ### Calls -/

variable (α) in
/-- The line has no word for a coordinate of the plane, and none that selects a distance mode or leaves the
work coordinates. -/
structure IsIdle (line : String) : Prop where
  plane : ∀ d : PathAxis, d ≠ .z → (lineWords line : LineWords α).axes.get d.axis = none
  distance : ∀ w ∈ wordsOf line, w.distance? α = none
  frame : (lineWords line : LineWords α).machineFrame = false

theorem isIdle_iff {line : String} : IsIdle α line ↔
    (lineWords line : LineWords α).axes.get .x = none ∧ (lineWords line : LineWords α).axes.get .y = none ∧
      (∀ w ∈ wordsOf line, w.distance? α = none) ∧ (lineWords line : LineWords α).machineFrame = false := by
  constructor
  · exact fun h => ⟨h.plane .x (by decide), h.plane .y (by decide), h.distance, h.frame⟩
  · rintro ⟨hx, hy, hdistance, hframe⟩
    refine ⟨?_, hdistance, hframe⟩
    rintro (_ | _ | _) hd
    exacts [hx, hy, absurd rfl hd]

/-- The block is left as a comment: it calls, or it comes after the end of the program. -/
def Block.isBlanked (b : Block α) : Bool := b.afterEnd || b.call.isSome

/-- Lines that call do not move the tool in the plane. Within parentheses, where nothing of a line is left but
what follows a closing parenthesis, a line neither moves it nor calls. -/
structure Program.CallsIdle (p : Program α) : Prop where
  line : ∀ b ∈ p.executed, b.afterEnd = false → b.call.isSome = true → IsIdle α b.text
  comment : ∀ b ∈ p.executed, b.isBlanked = true → IsIdle α (flattenLine b).text
  silent : ∀ b ∈ p.executed, b.isBlanked = true → (LineCodes.ofLine α (flattenLine b).text).call? = none

/-- A line that ends the program neither calls nor is cut, and it is not in a subroutine. -/
def Program.EndsWhole (p : Program α) (maxStep : α) : Prop :=
  ∀ b ∈ p.executed, b.afterEnd = false → (LineCodes.ofLine α (flattenLine b).text).endsProgram = true →
    b.isEnd = true ∧ b.isCut maxStep = false

variable {b : Block α}

theorem Program.exists_flattenLine_eq (h : b.isBlanked = true) :
    ∃ before after, before.toList ++ after.toList ⊆ ['(', ' ', ')'] ∧
      flattenLine b = b.standIn (enclosed before b.text after) := by
  rw [flattenLine]
  split
  · exact ⟨_, _, by decide, rfl⟩
  · rename_i hafterEnd
    rw [Block.isBlanked, Bool.eq_false_of_not_eq_true hafterEnd, Bool.false_or] at h
    exact ⟨_, _, by decide, if_pos h⟩

theorem Program.flattenLine_of_not_isBlanked (h : b.isBlanked = false) : flattenLine b = b := by
  rw [Block.isBlanked, Bool.or_eq_false_iff] at h
  simp [flattenLine, h.1, h.2]

/-- Parentheses and blanks around a line add no marker to it. -/
theorem Markers.onLine_of_enclosed {marker before text after : String} (hnil : Text.upper marker.toList ≠ [])
    (hbefore : ∀ c ∈ Text.upper before.toList, c ∉ Text.upper marker.toList)
    (hafter : ∀ c ∈ Text.upper after.toList, c ∉ Text.upper marker.toList)
    (h : onLine marker (enclosed before text after)) : onLine marker text := by
  have htrim : Text.trim text.toList <:+: text.toList := by
    rw [Text.trim]
    exact ((List.reverse_prefix.mpr (List.dropWhile_suffix _)).isInfix).trans
      (by rw [List.reverse_reverse]; exact (List.dropWhile_suffix _).isInfix)
  rw [onLine, Text.occursIn_iff, enclosed, String.toList_append, String.toList_append, String.toList_ofList,
    Text.upper_append, Text.upper_append] at h
  rw [onLine, Text.occursIn_iff]
  exact (infix_of_infix_enclosed hnil hbefore hafter h).trans (Text.upper_infix htrim)

/-- A hidden section starts in a comment only if it starts on the line. -/
theorem Program.unmarked_flattenLine (h : Markers.onLine ({} : Markers).hideStart b.text = false) :
    Markers.onLine ({} : Markers).hideStart (flattenLine b).text = false := by
  cases hblanked : b.isBlanked with
  | false => rwa [flattenLine_of_not_isBlanked hblanked]
  | true =>
      obtain ⟨before, after, hchars, heq⟩ := exists_flattenLine_eq hblanked
      have hfree : ∀ c ∈ Text.upper (before.toList ++ after.toList),
          c ∉ Text.upper ({} : Markers).hideStart.toList := by
        have hsigns : ∀ c' ∈ ['(', ' ', ')'], ∀ c ∈ Text.upperOf c',
            c ∉ Text.upper ({} : Markers).hideStart.toList := by simp [Text.upper, Text.upperOf]
        intro c hc
        obtain ⟨c', hc', hc⟩ := List.mem_flatMap.mp hc
        exact hsigns c' (hchars hc') c hc
      rw [Text.upper_append] at hfree
      rw [heq, ← Bool.not_eq_true]
      intro hmark
      rw [← Bool.not_eq_true] at h
      exact h (Markers.onLine_of_enclosed (by decide) (fun c hc => hfree c (List.mem_append_left _ hc))
        (fun c hc => hfree c (List.mem_append_right _ hc)) hmark)

theorem Block.Unbroken.flattenLine (h : b.Unbroken) : (Program.flattenLine b).Unbroken := by
  cases hblanked : b.isBlanked with
  | false => rwa [Program.flattenLine_of_not_isBlanked hblanked]
  | true =>
      obtain ⟨before, after, hchars, heq⟩ := Program.exists_flattenLine_eq hblanked
      have hfree : '\n' ∉ before.toList ++ after.toList := fun hmem => absurd (hchars hmem) (by decide)
      rw [List.mem_append, not_or] at hfree
      rw [heq]
      refine ⟨?_, by simp [standIn, inert, ExtraWords.texts]⟩
      change '\n' ∉ (enclosed before b.text after).toList
      rw [enclosed, String.toList_append, String.toList_append, String.toList_ofList, List.mem_append,
        List.mem_append, not_or, not_or]
      exact ⟨⟨hfree.1, fun hmem => h.text (Content.mem_of_mem_trim hmem)⟩, hfree.2⟩

end

variable {α : Type} [Field α] [LinearOrder α] [IsStrictOrderedRing α] [FloorRing α] [PlaneFunctions α]

/-! ### The lines of the new program -/

omit [IsStrictOrderedRing α] in
/-- The lines of the new program in groups, one group for each step of the program. -/
theorem Program.exists_groups_following {lines : List String} (hlines : ∀ line ∈ lines, '\n' ∉ line.toList)
    (settings : Settings α) (machine : Machine α) (surface : Surface α) (format : NumberFormat) :
    let p := ofLines lines settings machine
    let step := surface.cellSize
    ∃ groups, Text.lines (listing format (p.following surface format.decimalPlaces machine)) = groups.flatten ∧
      List.Forall₂ (fun b group => List.Forall₂ (fun b line => ∃ q, b.Raised q ∧ ∃ e, line = q.reread format e)
        ((flattenLine b).linearized step (some step) format.decimalPlaces) group) p.executed groups := by
  intro p step
  have hraised := p.forall₂_following surface format.decimalPlaces machine
  have hunbroken : ∀ q ∈ p.following surface format.decimalPlaces machine, q.Unbroken := by
    refine forall_mem_of_forall₂ (fun b q h (hb : b.Unbroken) => hb.edit h.edit) hraised ?_
    intro b hb
    obtain ⟨b₁, hb₁, hb⟩ := List.mem_flatMap.mp hb
    rw [flattened_ofLines] at hb₁
    obtain ⟨b₀, hb₀, rfl⟩ := List.mem_map.mp hb₁
    exact (unbroken_executed hlines settings machine b₀ hb₀).flattenLine.linearized _ _ _ b hb
  have hwritten := forall₂_comp hraised (forall₂_lines_listing hunbroken format)
  rw [flattened_ofLines, List.flatMap_def, List.map_map] at hwritten
  obtain ⟨groups, htext, hgroups⟩ := exists_groups_of_forall₂ hwritten
  exact ⟨groups, htext, List.forall₂_map_left_iff.mp hgroups⟩

omit [IsStrictOrderedRing α] in
/-- A line that stands in for another one is not cut. -/
theorem Block.linearized_standIn (hhypot : Scalar.hypot 0 0 = (0 : α)) (b : Block α) (text : String)
    (maxStep : α) (places : ℕ) :
    (b.standIn text).linearized maxStep (some maxStep) places = [b.standIn text] := by
  have hlong : (b.standIn text).isLong maxStep = false := by
    have hzero : (Scalar.ofNat 0 : α) = 0 := Nat.cast_zero
    have hlength : (b.standIn text).planarLength = 0 := by
      change Scalar.hypot ((Scalar.ofNat 0 : α) - Scalar.ofNat 0) (Scalar.ofNat 0 - Scalar.ofNat 0) = 0
      rw [hzero, sub_zero, hhypot]
    rw [isLong, hlength, ← hzero, Bool.and_assoc, Bool.and_eq_false_iff]
    right
    rw [Bool.and_eq_false_iff, decide_eq_false_iff_not, Bool.not_eq_false', decide_eq_true_iff]
    exact (lt_or_ge (Scalar.ofNat 0) maxStep).symm.imp not_lt.mpr le_of_lt
  have harc : (b.standIn text).place.arc = none := rfl
  simp only [linearized, harc, Option.isSome_none, Bool.false_eq_true, if_false, splitLine, hlong]
  split <;> rfl

end PartProgram
