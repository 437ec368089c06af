import PartProgram.Edit.Basic
import PartProgram.Proofs.Block.SingleLine
import PartProgram.Proofs.Edit.Lines
import PartProgram.Proofs.Program.Reading

/-! # Programs as texts

The text of a program that has been read is the text that its lines make, and whatever an edit
writes for it can be read back line by line.
-/

namespace PartProgram

open Text (IsLine)

variable {α : Type}

namespace Block.SingleLine

variable {b b' : Block α}

theorem of_eq (h : b.SingleLine) (htext : b'.text = b.text) (hextra : b'.extra = b.extra) :
    b'.SingleLine :=
  ⟨htext ▸ h.text, hextra ▸ h.extra⟩

theorem edit (h : b.SingleLine) (hedit : b.EditOf b') : b'.SingleLine :=
  h.of_eq hedit.text hedit.extra

variable [Scalar α]

theorem piece {c : Cut α} (h : c.source.SingleLine) (k : ℕ) : (c.piece k).SingleLine := by
  refine ⟨h.text, ?_⟩
  simp only [Cut.piece]
  split
  · exact h.extra
  · simp [ExtraWords.texts]

theorem linearized (h : b.SingleLine) (arcStep : α) (lineStep : Option α) (places : ℕ) :
    ∀ b' ∈ b.linearized arcStep lineStep places, b'.SingleLine :=
  forall_mem_linearized h (fun _ hc k => piece (hc ▸ h) k) arcStep lineStep places

theorem standIn (h : b.SingleLine) {before after : String} (hbefore : IsLine before)
    (hafter : IsLine after) : (b.standIn (enclosed before b.text after)).SingleLine := by
  refine ⟨(hbefore.append ?_).append hafter, by simp [Block.standIn, inert, ExtraWords.texts]⟩
  exact Text.isLine_ofList fun c hc => h.text c (Content.mem_of_mem_trim hc)

end Block.SingleLine

namespace Program

/-- Every block that the program executes comes from a single line. -/
def SingleLines (p : Program α) : Prop := ∀ b ∈ p.executed, b.SingleLine

variable [Scalar α]

/-! ### The text that a program is read from -/

theorem singleLines_ofLines {lines : List String} (h : ∀ line ∈ lines, IsLine line)
    (settings : Settings α) (machine : Machine α) : (ofLines lines settings machine).SingleLines := by
  intro b hb
  have hmem := List.mem_map_of_mem (f := Block.unplaced) hb
  rw [ofLines_eq, executed_place (modified_asRead lines settings)] at hmem
  obtain ⟨b₀, hb₀, heq⟩ := List.mem_map.mp hmem
  obtain ⟨n, m, hread⟩ := exists_read_of_mem_executed lines settings hb₀
  have hline : IsLine (lines.getD n "") := by
    rw [List.getD_eq_getElem?_getD]
    cases hn : lines[n]? with
    | none => simp [IsLine]
    | some line => exact h line (List.mem_of_getElem? hn)
  have hsingle : b₀.asRead.SingleLine := hread ▸ Block.singleLine_read hline n m
  have hplaced : b₀.unplaced.SingleLine := hsingle.of_eq rfl rfl
  rw [heq] at hplaced
  exact hplaced.of_eq rfl rfl

theorem text_ofLines (lines : List String) (settings : Settings α) (machine : Machine α)
    (format : NumberFormat) : (ofLines lines settings machine).text format = Text.ofLines lines := by
  have hunmodified : ∀ b ∈ (ofLines lines settings machine).lines, b.modified = false :=
    modified_place (modified_asRead lines settings) machine
  have hwrite : ∀ (bs : List (Block α)) (e : Emitted α), (∀ b ∈ bs, b.modified = false) →
      (pass (Block.write format) e bs).2 = bs.map (·.text) := by
    intro bs e hbs
    induction bs generalizing e with
    | nil => rfl
    | cons b bs ih =>
        have hb : Block.write format e b = (e.observe b.feed b.spindle, b.text) := by
          rw [Block.write, if_neg (by simp [hbs b (by simp)])]
        rw [pass_cons, hb, ih _ fun b hb => hbs b (by simp [hb])]
        rfl
  rw [text, listing, hwrite _ _ hunmodified, texts_ofLines]

/-! ### Texts that are written -/

/-- A listing of blocks from single lines is read back line by line. -/
theorem lines_listing {blocks : List (Block α)} (h : ∀ b ∈ blocks, b.SingleLine)
    (format : NumberFormat) :
    ∃ lines, (∀ line ∈ lines, IsLine line) ∧ listing format blocks = Text.ofLines lines := by
  refine ⟨_, ?_, rfl⟩
  intro line hline
  obtain ⟨emitted, b, hb, rfl⟩ := exists_of_mem_pass hline
  exact (h b hb).isLine_write format emitted

theorem singleLine_of_withMove {comment : String} (hcomment : IsLine comment)
    {bs bs' : List (Block α)} (h : WithMove comment bs bs') (hbs : ∀ b ∈ bs, b.SingleLine) :
    ∀ b ∈ bs', b.SingleLine := by
  refine h.forall_mem ?_ (fun b _ hb => hb.of_eq rfl rfl) hbs
  intro slot feed spindle
  have htext : IsLine ((if slot.selectsRelative then "G91 G0 X0 Y0 " else "G0 X0 Y0 ") ++ comment) := by
    refine Text.IsLine.append ?_ hcomment
    split <;> simp [IsLine]
  exact (Block.singleLine_read htext slot.line _).edit (Block.editOf_modified _)

omit [Scalar α] in
theorem EditsLines.singleLine {p q : Program α} (h : p.EditsLines q)
    (hp : ∀ b ∈ p.lines, b.SingleLine) : ∀ b ∈ q.lines, b.SingleLine :=
  forall_mem_of_forall₂ (fun _ _ hedit hb => hb.edit hedit) h hp

theorem singleLine_change {p : Program α} (hp : ∀ b ∈ p.lines, b.SingleLine)
    {settings : Settings α} (hcomment : IsLine settings.markers.offsetMoveComment) (edit : Edit α) :
    ∀ b ∈ (edit.change p settings).lines, b.SingleLine := by
  by_cases hoffset : ∀ anchor extra, edit ≠ .offset anchor extra
  · exact (editsLines_change hoffset p settings).singleLine hp
  · simp only [not_forall, not_not] at hoffset
    obtain ⟨anchor, extra, rfl⟩ := hoffset
    exact (editsLines_shiftLines _ _).singleLine
      (singleLine_of_withMove hcomment (p.withMove_lines _) hp)

theorem singleLine_following {p : Program α} (hp : p.SingleLines) (surface : Surface α) (places : ℕ)
    (machine : Machine α) : ∀ b ∈ p.following surface places machine, b.SingleLine := by
  have hflat : ∀ b ∈ p.flattened, b.SingleLine := by
    intro b hb
    obtain ⟨e, he, hb⟩ := List.mem_flatMap.mp hb
    rcases List.mem_cons.mp hb with rfl | hb
    · have hline : e.line.SingleLine := hp _ (lines_subset_executed p (List.mem_map_of_mem he))
      rw [flattenLine]
      split
      · exact hline.standIn (by simp [IsLine]) (by simp [IsLine])
      · split
        · exact hline.standIn (by simp [IsLine]) (by simp [IsLine])
        · exact hline
    · obtain ⟨c, hc, rfl⟩ := List.mem_map.mp hb
      have hcopy : c.block.SingleLine := hp _ (List.mem_flatMap.mpr
        ⟨e, he, List.mem_cons_of_mem _ (List.mem_map_of_mem hc)⟩)
      rw [flattenCopy]
      split
      · exact hcopy.standIn (by simp [IsLine]) (by simp [IsLine])
      · exact hcopy
  have hcut : ∀ b ∈ p.flattened.flatMap (Block.linearized surface.cellSize (some surface.cellSize) places),
      b.SingleLine := by
    intro b hb
    obtain ⟨b₀, hb₀, hb⟩ := List.mem_flatMap.mp hb
    exact (hflat b₀ hb₀).linearized _ _ _ b hb
  intro b hb
  obtain ⟨z, b₀, hb₀, rfl⟩ := exists_of_mem_pass hb
  have hplaced : b₀.SingleLine := by
    refine (editsLines_place _ machine).singleLine ?_ b₀ hb₀
    simpa [lines, Entry.ofLine, Function.comp_def] using hcut
  rw [followStep]
  split
  · exact hplaced
  · exact hplaced.edit (Block.editOf_withAxis _ _ _)

/-- The text of an edited program is read back line by line. -/
theorem lines_apply {p : Program α} (hp : p.SingleLines) {settings : Settings α}
    (hcomment : IsLine settings.markers.offsetMoveComment) (edit : Edit α) (machine : Machine α) :
    ∃ lines, (∀ line ∈ lines, IsLine line) ∧
      (edit.apply p settings machine).2 = Text.ofLines lines := by
  by_cases hempty : p.isEmpty = true
  · rw [edit.apply_of_isEmpty hempty]
    exact ⟨[], by simp, rfl⟩
  · by_cases hfollow : ∀ surface, edit ≠ .follow surface
    · have hlines : ∀ b ∈ p.lines, b.SingleLine := fun b hb => hp b (lines_subset_executed p hb)
      rw [Edit.apply_eq hfollow (by simpa using hempty)]
      refine lines_listing ?_ _
      exact (editsLines_place _ machine).singleLine (singleLine_change hlines hcomment edit)
    · simp only [not_forall, not_not] at hfollow
      obtain ⟨surface, rfl⟩ := hfollow
      have happly : (Edit.apply (.follow surface) p settings machine).2 = listing settings.format
          (p.following surface settings.format.decimalPlaces machine) := by
        rw [Edit.apply, if_neg hempty]
      rw [happly]
      exact lines_listing (singleLine_following hp surface _ machine) _

end Program

end PartProgram
