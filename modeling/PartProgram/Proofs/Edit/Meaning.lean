import PartProgram.Proofs.Edit.Rereading

/-! # The meaning of an edited text

The text that an edit gives for a program without calls means what the edited program does: read
again, its lines take the tool to the same places, at the same speeds.
-/

namespace PartProgram

section

variable {α : Type} [Scalar α]

/-- A line with the start marker is hidden. -/
theorem Program.hidden_of_onLine {lines : List String} {settings : Settings α} {machine : Machine α} {b : Block α}
    (hb : b ∈ (ofLines lines settings machine).lines)
    (h : Markers.onLine settings.markers.hideStart b.text = true) : b.hidden = true := by
  rw [ofLines_eq] at hb
  obtain ⟨b₀, hb₀, heq⟩ := exists_mem_of_mem_lines_place hb
  have hread : ∀ (source : Source) (r : ProgramReader α) (l : ℕ × String),
      (r.readLine source l).2.line.hidden = source.markers.hides r.hidden l.2 ∧
        (r.readLine source l).2.line.text = l.2 := by
    intro source r l
    simp [ProgramReader.readLine, Block.read_snd, Block.inert]
  obtain ⟨e, he, rfl⟩ := List.mem_map.mp hb₀
  obtain ⟨r, l, -, hl⟩ := exists_of_mem_pass he
  obtain ⟨hhidden, htext⟩ := hread _ r l
  rw [hl] at hhidden htext
  have htext : b.text = l.2 := (congrArg Block.text heq).symm.trans htext
  have hhidden : b.hidden = settings.markers.hides r.hidden l.2 :=
    (congrArg Block.hidden heq).symm.trans hhidden
  rw [hhidden, Markers.hides, ← htext, if_pos h]

end

variable {α : Type} [Field α] [LinearOrder α] [IsStrictOrderedRing α] [FloorRing α] [PlaneFunctions α]

omit [IsStrictOrderedRing α] in
theorem Program.survives_read {text : String} {settings : Settings α} {machine : Machine α}
    (hmarkers : settings.markers = {}) {b : Block α} (hb : b ∈ (read text settings machine).lines)
    (heditable : b.isEditable = true) (hcall : b.call = none) : b.Survives := by
  simp only [Block.isEditable, Bool.not_eq_true', Bool.or_eq_false_iff] at heditable
  obtain ⟨⟨hframe, hhidden⟩, -⟩ := heditable
  refine ⟨fromText_ofLines _ settings machine b hb, ?_, ?_, hframe, hhidden, hcall⟩
  · have htext : b.text ∈ (read text settings machine).lines.map (·.text) := List.mem_map_of_mem hb
    rw [read, texts_ofLines] at htext
    exact Text.not_mem_of_mem_lines htext
  · rw [← hmarkers, ← Bool.not_eq_true]
    intro hmark
    have hhides := hidden_of_onLine hb hmark
    simp [hhidden] at hhides

omit [IsStrictOrderedRing α] in
theorem Block.survives_unplaced {b : Block α} : b.unplaced.Survives ↔ b.Survives :=
  ⟨fun h => ⟨fromText_unplaced.mp h.fromText, h.line, h.unmarked, h.machineFrame, h.hidden, h.call⟩,
    fun h => ⟨fromText_unplaced.mpr h.fromText, h.line, h.unmarked, h.machineFrame, h.hidden, h.call⟩⟩

theorem survives_offsetMove (slot : OffsetSlot) (feed spindle : α) :
    (offsetMove slot "(offset move)" feed spindle).Survives := by
  obtain ⟨-, -, -, -, -, hframe, hcall, -, hhidden, -, hmodified⟩ := offsetMove_modes isSilent_default slot feed spindle
  refine ⟨?_, ?_, ?_, hframe, hhidden, hcall⟩
  · exact (Block.fromText_read _ _ _).edit (Block.editOf_modified _)
  · rw [text_offsetMove]
    cases slot.selectsRelative <;> decide
  · rw [text_offsetMove]
    cases slot.selectsRelative <;> decide

/-! ### The lines of an edited program -/

/-- What an edit leaves: lines that follow each other, to be read again. -/
structure Program.IsEdited (flips : Prop) (p : Program α) : Prop where
  chained : Chained flips .start p.lines
  survives : ∀ b ∈ p.lines, b.Survives
  unchanged : ∀ b ∈ p.lines, flips → b.modified = false → b.hasCoordinates = true → b.motion.isArc = false

theorem isEdited_change {p : Program α} (hchained : Chained False .start p.lines)
    (hsurvives : ∀ b ∈ p.lines, b.Survives) (hunmodified : ∀ b ∈ p.lines, b.modified = false)
    (heditable : ∀ b ∈ p.lines, b.isEditable = true)
    (hmotion : ∀ b ∈ p.lines, b.hasCoordinates = true → b.motion ≠ .unset) {settings : Settings α}
    (hmarkers : settings.markers = {}) (edit : Edit α) :
    (edit.change p settings).IsEdited edit.Flips := by
  have hresult : ∀ {flips : Prop} {bs : List (Block α)} {q : Program α}, Chained False .start bs →
      (∀ b ∈ bs, b.Survives) →
      (∀ b ∈ bs, b.modified = true ∨ b.hasCoordinates = true → b.motion ≠ .unset) →
      List.Forall₂ (Block.ChangesTo flips) bs q.lines → q.IsEdited flips := by
    intro flips bs q hchained hsurvives hmotion hchanges
    exact ⟨hchained.changes hchanges ⟨.refl _, rfl, rfl, rfl, rfl⟩ hmotion,
      forall_mem_of_forall₂ (fun _ _ h hb => hb.edit h.edit) hchanges hsurvives,
      forall_mem_of_forall₂ (P := fun _ => True) (fun _ _ h _ => h.unchanged) hchanges (by simp)⟩
  have hselects : ∀ b ∈ p.lines, b.modified = true ∨ b.hasCoordinates = true → b.motion ≠ .unset := by
    intro b hb h
    rcases h with h | h
    · simp [hunmodified b hb] at h
    · exact hmotion b hb h
  by_cases hoffset : ∀ anchor extra, edit ≠ .offset anchor extra
  · exact hresult hchained hsurvives hselects (Edit.changes hoffset heditable settings)
  · simp only [not_forall, not_not] at hoffset
    obtain ⟨anchor, extra, rfl⟩ := hoffset
    have hmove := p.withMove_lines settings.markers.offsetMoveComment
    rw [hmarkers] at hmove
    have hmoved : WithMove "(offset move)" p.lines (p.withOffsetMove "(offset move)").lines := hmove
    have hselects' := hmoved.forall_mem
      (P := fun b => b.modified = true ∨ b.hasCoordinates = true → b.motion ≠ .unset) (by
        intro slot feed spindle _
        rw [(offsetMove_modes isSilent_default slot feed spindle).1]
        simp) (fun b hb h _ => h (.inr hb)) hselects
    have hsurvives' := hmoved.forall_mem survives_offsetMove
      (fun b _ hb => hb.edit b.editOf_modified) hsurvives
    refine hresult (hchained.withMove hmoved hmotion) hsurvives' hselects' ?_
    have hcomment : settings.markers.offsetMoveComment = "(offset move)" := by rw [hmarkers]
    rw [Edit.change, Program.shift, hcomment]
    exact Program.forall₂_shiftLines _ _ .refl fun pending b _ => Block.changesTo_shifted _ pending b

namespace Program.IsEdited

variable {flips : Prop} {p : Program α}

/-- The text of an edited program is read line by line. -/
theorem exists_retraces (h : p.IsEdited flips) {settings : Settings α} (hmarkers : settings.markers = {})
    (hplaces : settings.format.decimalPlaces ≤ 5)
    (hgrid : ∀ b ∈ p.lines, b.OnGrid settings.format.decimalPlaces) :
    ∃ bs, (asRead (Text.lines (p.text settings.format)) settings).entries = bs.map .ofLine ∧
      Retraces flips false p.lines bs := by
  have hlisted : ∀ line ∈ (pass (Block.write settings.format) Emitted.atStart p.lines).2,
      '\n' ∉ line.toList := by
    intro line hline
    obtain ⟨e, b, hb, rfl⟩ := exists_of_mem_pass hline
    have hb := h.survives b hb
    exact hb.fromText.not_mem_write settings.format e hb.line
  have hzero : (Carried.start : Carried α).feed = 0 := Nat.cast_zero
  have hstart : OnGrid settings.format.decimalPlaces (Carried.start : Carried α).feed :=
    hzero ▸ onGrid_zero
  obtain ⟨bs, hbs, hretraces⟩ := h.chained.retraces hplaces
    (fun b hb => ⟨h.survives b hb, hgrid b hb, h.unchanged b hb⟩) hstart hstart
    (Source.ofLines α (Text.lines (p.text settings.format)) settings.calls settings.markers)
    hmarkers (r := ⟨⟨Modal.initial, none⟩, false, false⟩) ⟨.refl _, rfl, rfl, rfl, rfl⟩ rfl 0
  refine ⟨bs, ?_, hretraces⟩
  have hlines : Text.lines (p.text settings.format) =
      (pass (Block.write settings.format) Emitted.atStart p.lines).2.map fun line =>
        String.ofList (Text.dropReturn line.toList) := Text.lines_ofLines hlisted
  simp only [Nat.zero_add] at hbs
  rw [← hbs, asRead, hlines]
  rfl

omit [IsStrictOrderedRing α] in
theorem place (h : p.IsEdited flips) (machine : Machine α) : (p.place machine).IsEdited flips := by
  have hlines := p.lines_place machine
  have hplaced : ∀ b ∈ (p.place machine).lines, ∃ b₀ ∈ p.lines, b₀.unplaced = b.unplaced := by
    intro b hb
    exact List.mem_map.mp (hlines ▸ List.mem_map_of_mem hb)
  refine ⟨?_, ?_, ?_⟩
  · rw [← chained_map_unplaced, hlines, chained_map_unplaced]
    exact h.chained
  · intro b hb
    obtain ⟨b₀, hb₀, heq⟩ := hplaced b hb
    rw [← Block.survives_unplaced, ← heq, Block.survives_unplaced]
    exact h.survives b₀ hb₀
  · intro b hb
    obtain ⟨b₀, hb₀, heq⟩ := hplaced b hb
    have hunchanged : ∀ b : Block α, (flips → b.modified = false → b.hasCoordinates = true →
        b.motion.isArc = false) ↔ (flips → b.unplaced.modified = false →
        b.unplaced.hasCoordinates = true → b.unplaced.motion.isArc = false) := fun _ => Iff.rfl
    rw [hunchanged, ← heq, ← hunchanged]
    exact h.unchanged b₀ hb₀

/-- The text of an edited program is read into a program that does the same. -/
theorem reread (h : p.IsEdited flips) (hp : p.IsStraight) (machine : Machine α) {settings : Settings α}
    (hmarkers : settings.markers = {})
    (hplaces : settings.format.decimalPlaces ≤ 5)
    (hgrid : ∀ b ∈ (p.place machine).lines, b.OnGrid settings.format.decimalPlaces) :
    let q := p.place machine
    let r := read (q.text settings.format) settings machine
    List.Forall₂ Block.Retraced q.lines r.lines ∧ r.extent = q.extent ∧ r.figures = q.figures := by
  obtain ⟨bs, hbs, hretraces⟩ := (h.place machine).exists_retraces hmarkers hplaces hgrid
  have hread : ∀ text, read text settings machine = (asRead (Text.lines text) settings).place machine :=
    fun _ => rfl
  simp only [hread]
  generalize asRead (Text.lines ((p.place machine).text settings.format)) settings = r at hbs ⊢
  obtain ⟨hr, hlines⟩ := isStraight_of_entries_eq hbs
  have halike : Tool.Alike false (.atStart machine) (.atStart machine) :=
    ⟨rfl, rfl, rfl, fun _ => ⟨rfl, rfl⟩⟩
  obtain ⟨hforall, hfigures, hextent⟩ := hretraces.pass machine halike
  rw [hp.lines_place, Tool.pass_step_placed] at hforall hfigures hextent
  rw [hr.lines_place, hp.lines_place, hr.place_eq, hp.place_eq, hlines]
  exact ⟨hforall, hextent, hfigures⟩

end Program.IsEdited

/-! ### The meaning of the text -/

/-- The text that an edit of a program without calls gives means what the edit has done: read again, it
has the lines of the edited program, which take the tool to the same places. -/
theorem Program.forall₂_read_apply (text : String) (settings : Settings α) (machine : Machine α)
    (edit : Edit α) (hedit : ∀ surface, edit ≠ .follow surface) (hmarkers : settings.markers = {})
    (hplaces : settings.format.decimalPlaces ≤ 5) :
    let p := read text settings machine
    let edited := edit.apply p settings machine
    let r := read edited.2 settings machine
    (∀ b ∈ p.lines, b.call = none) → (∀ b ∈ p.lines, b.isEditable = true) →
      (∀ b ∈ p.lines, b.hasCoordinates = true → b.motion ≠ .unset) →
      (∀ b ∈ edited.1.lines, b.OnGrid settings.format.decimalPlaces) →
      List.Forall₂ Block.Retraced edited.1.lines r.lines ∧ r.extent = edited.1.extent ∧
        r.figures = edited.1.figures := by
  intro p edited r hcall heditable hmotion hgrid
  have hcodes := codes_of_call_eq_none hcall
  have hstraight : p.IsStraight := isStraight_ofLines hcodes machine
  have hunmodified : ∀ b ∈ p.lines, b.modified = false :=
    modified_place (modified_asRead (Text.lines text) settings) machine
  have hedited : (edit.change p settings).IsEdited edit.Flips :=
    isEdited_change (chained_ofLines hcodes)
      (fun b hb => survives_read hmarkers hb (heditable b hb) (hcall b hb)) hunmodified heditable hmotion
      hmarkers edit
  by_cases hempty : p.isEmpty = true
  · have hlines : p.lines = [] := by simpa [isEmpty, lines] using hempty
    have htext : Text.lines text = [] := by
      have htexts := texts_ofLines (Text.lines text) settings machine
      rw [← htexts]
      exact List.map_eq_nil_iff.mpr hlines
    have happly : edited = (p, "") := edit.apply_of_isEmpty hempty settings machine
    have hr : r = p := by
      change ofLines (Text.lines edited.2) settings machine = ofLines (Text.lines text) settings machine
      rw [happly, htext]
      rfl
    rw [hr, happly, hlines]
    exact ⟨.nil, rfl, rfl⟩
  · have happly := Edit.apply_eq hedit (by simpa using hempty : p.isEmpty = false) settings machine
    have hreread := hedited.reread (hstraight.change edit settings) machine hmarkers hplaces
    simp only [r, edited, happly] at hgrid ⊢
    exact hreread hgrid

/-- A relative program is moved by a move of its own after the first retract. -/
theorem Program.retraced_offset :
    let _ := PlaneFunctions.straight
    let settings : Settings ℚ := .default
    let p := read "G91 G1 X1 Y2 F60\nG0 Z5\nX3\nG1 Y.5\n" settings .default
    let edited := (Edit.offset .center ⟨1 / 2, 0⟩).apply p settings .default
    let r := read edited.2 settings .default
    ((∀ b ∈ p.lines, b.call = none) ∧ (∀ b ∈ p.lines, b.isEditable = true) ∧
      (∀ b ∈ p.lines, b.hasCoordinates = true → b.motion ≠ .unset) ∧
      ∀ b ∈ edited.1.lines, b.OnGrid settings.format.decimalPlaces) ∧
    edited.1.lines.length = 5 ∧ List.Forall₂ Block.Retraced edited.1.lines r.lines ∧
      r.extent = edited.1.extent ∧ r.figures = edited.1.figures := by
  intro _ settings p edited r
  have hcall : ∀ b ∈ p.lines, b.call = none := by decide +kernel
  have heditable : ∀ b ∈ p.lines, b.isEditable = true := by decide +kernel
  have hmotion : ∀ b ∈ p.lines, b.hasCoordinates = true → b.motion ≠ .unset := by decide +kernel
  have hgrid : ∀ b ∈ edited.1.lines, b.OnGrid settings.format.decimalPlaces := by decide +kernel
  exact ⟨⟨hcall, heditable, hmotion, hgrid⟩, by decide +kernel,
    forall₂_read_apply _ settings .default _ (by simp) rfl (by decide) hcall heditable hmotion hgrid⟩

end PartProgram
