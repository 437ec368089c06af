import PartProgram.Proofs.Edit.Slots
import PartProgram.Proofs.Program.Figures
import PartProgram.Proofs.Program.Insertion

/-! # Numbers of lines

Lines are numbered when a program is read. An edit that keeps the lines in place keeps the numbers. When an offset puts
a line in, the copies learn the new index of their line, but the lines after the new one keep their old numbers.
-/

namespace PartProgram

variable {α : Type}

/-- The index of the line that the step belongs to. -/
def Step.index : Step α → ℕ
  | line index => index
  | copy c => c.definition

/-- The index that a line had before another one was put in front of line `slot`. -/
def indexBefore (slot n : ℕ) : ℕ := if slot < n then n - 1 else n

theorem indexBefore_shiftedIndex (slot n : ℕ) : indexBefore slot (shiftedIndex slot n) = n := by
  rw [indexBefore, shiftedIndex]
  split_ifs <;> omega

theorem shiftedIndex_le (slot n : ℕ) : shiftedIndex slot n ≤ n + 1 := by
  rw [shiftedIndex]
  split_ifs <;> omega

/-- Where an offset puts a line in, if it does. -/
def Program.offsetLine? (p : Program α) : Option ℕ :=
  if p.containsRelative then (offsetSlot p.lines).map (·.line) else none

/-- Where the edit puts a line in, if it does. -/
def Edit.insertion? (edit : Edit α) (p : Program α) : Option ℕ :=
  match edit with
  | offset _ _ => p.offsetLine?
  | _ => none

theorem Program.offsetLine?_le {p : Program α} {slot : ℕ} (h : p.offsetLine? = some slot) : slot ≤ p.lines.length := by
  rw [offsetLine?] at h
  split at h
  · obtain ⟨s, hs, rfl⟩ := Option.map_eq_some_iff.mp h
    exact (offsetSlot_take hs).1
  · simp at h

theorem Edit.insertion?_le {edit : Edit α} {p : Program α} {slot : ℕ} (h : edit.insertion? p = some slot) :
    slot ≤ p.lines.length := by
  cases edit with
  | offset anchor extra => exact Program.offsetLine?_le h
  | mirror | turn | stretch | dropZ | follow => simp [insertion?] at h

namespace Coordinates

/-- The lines of a figure are lines of positions. -/
theorem exists_mem_of_figureLines? {cs : Coordinates α} {figure first last : ℕ}
    (h : cs.figureLines? figure = some (first, last)) :
    (∃ c ∈ cs, c.line = first) ∧ ∃ c ∈ cs, c.line = last := by
  simp only [figureLines?] at h
  set run := (cs.dropWhile (·.figure != some figure)).takeWhile (·.figure == some figure) with hrun
  have hsub : run ⊆ cs := ((List.takeWhile_prefix _).sublist.trans (List.dropWhile_suffix _).sublist).subset
  split at h
  · rename_i c c' hfirst hlast
    obtain ⟨rfl, rfl⟩ := Prod.mk.inj (Option.some_inj.mp h)
    exact ⟨⟨c, hsub (List.mem_of_head? hfirst), rfl⟩, c', hsub (List.mem_of_getLast? hlast), rfl⟩
  · simp at h

theorem exists_mem_of_ofLine? {cs : Coordinates α} {line : ℕ} {c : Coordinate α} (h : cs.ofLine? line = some c) :
    c ∈ cs ∧ c.line = line := by
  have hline := List.find?_some h
  simp only [Bool.and_eq_true, beq_iff_eq] at hline
  exact ⟨List.mem_of_find?_eq_some h, hline.1⟩

end Coordinates

namespace Program

/-- Lines have the numbers that their indices stand for, and copies those of their lines. -/
structure NumberedBy (number : ℕ → ℕ) (p : Program α) : Prop where
  lines : ∀ n b, p.lines[n]? = some b → b.number = number n
  copies : ∀ e ∈ p.entries, ∀ c ∈ e.copies,
    c.definition < p.lines.length ∧ c.block.number = number c.definition

namespace NumberedBy

variable {number : ℕ → ℕ} {p q : Program α}

/-- Numbers are kept where the lines and copies are. -/
theorem of_editsLines (h : p.NumberedBy number) (hlines : p.EditsLines q)
    (hcopies : ∀ e' ∈ q.entries, ∀ c' ∈ e'.copies, ∃ e ∈ p.entries, ∃ c ∈ e.copies,
      c'.definition = c.definition ∧ c'.block.number = c.block.number) : q.NumberedBy number where
  lines n b' hb' := by
    obtain ⟨b, hb, hedit⟩ := exists_getElem?_of_forall₂ hlines.flip hb'
    exact hedit.number.trans (h.lines n b hb)
  copies e' he' c' hc' := by
    obtain ⟨e, he, c, hc, hdefinition, hnumber⟩ := hcopies e' he' c' hc'
    obtain ⟨hbound, hcopy⟩ := h.copies e he c hc
    rw [hdefinition, hnumber, ← hlines.length_eq]
    exact ⟨hbound, hcopy⟩

theorem of_copies_eq (h : p.NumberedBy number) (hlines : p.EditsLines q)
    (hcopies : q.entries.map (·.copies) = p.entries.map (·.copies)) : q.NumberedBy number := by
  refine h.of_editsLines hlines fun e' he' c hc => ?_
  have hmem : e'.copies ∈ p.entries.map (·.copies) := hcopies ▸ List.mem_map_of_mem he'
  obtain ⟨e, he, heq⟩ := List.mem_map.mp hmem
  exact ⟨e, he, c, heq ▸ hc, rfl, rfl⟩

/-- The lines after a new one keep their numbers. -/
theorem insertLine (h : p.NumberedBy id) {slot : ℕ} (hslot : slot ≤ p.lines.length) {line : Block α}
    (hline : line.number = slot) : (p.insertLine slot line).NumberedBy (indexBefore slot) := by
  have hlines : (p.insertLine slot line).lines = p.lines.insertIdx slot line := by
    rw [lines_insertLine, Nat.min_eq_left hslot]
  constructor
  · intro n b hb
    rw [hlines] at hb
    rw [indexBefore]
    split_ifs with hn
    · rw [List.getElem?_insertIdx_of_gt hn] at hb
      exact h.lines _ b hb
    · rcases lt_or_eq_of_le (not_lt.mp hn) with hn | rfl
      · rw [List.getElem?_insertIdx_of_lt hn] at hb
        exact h.lines n b hb
      · rw [List.getElem?_insertIdx_self, if_pos (by omega)] at hb
        obtain rfl := Option.some_inj.mp hb
        exact hline
  · intro e' he' c' hc'
    obtain ⟨e, he, c, hc, rfl⟩ := exists_of_mem_copies_insertLine he' hc'
    obtain ⟨hbound, hnumber⟩ := h.copies e he c hc
    rw [Nat.min_eq_left hslot, hlines, List.length_insertIdx_of_le_length hslot]
    exact ⟨lt_of_le_of_lt (shiftedIndex_le slot c.definition) (by omega),
      hnumber.trans (indexBefore_shiftedIndex slot c.definition).symm⟩

variable [Scalar α]

theorem ofLines (lines : List String) (settings : Settings α) (machine : Machine α) :
    (ofLines lines settings machine).NumberedBy id where
  lines n b hb := number_of_mem_lines hb
  copies e he c hc := by
    obtain ⟨-, hline⟩ := attached_ofLines lines settings machine e he c hc
    obtain ⟨line, hline, -⟩ := Option.map_eq_some_iff.mp hline
    exact ⟨(List.getElem?_eq_some_iff.mp hline).1, number_of_mem_copies he hc⟩

theorem place (h : p.NumberedBy number) (machine : Machine α) : (p.place machine).NumberedBy number := by
  refine h.of_editsLines (editsLines_place p machine) fun e' he' c' hc' => ?_
  obtain ⟨e, he, c, hc, hdefinition, hedit⟩ := exists_of_mem_copies_place he' hc'
  exact ⟨e, he, c, hc, hdefinition, hedit.number⟩

theorem shiftLines (h : p.NumberedBy number) (delta : Point α) : (p.shiftLines delta).NumberedBy number := by
  refine h.of_copies_eq (editsLines_shiftLines p delta) (map_pass ?_ _ _)
  intro pending e
  split <;> rfl

omit [Scalar α] in
theorem markLine (h : p.NumberedBy number) (index : ℕ) :
    NumberedBy number { p with
      entries := p.entries.modify index fun e => { e with line := { e.line with modified := true } } } := by
  have hmark : ∀ (bs : List (Block α)) n,
      List.Forall₂ Block.EditOf bs (bs.modify n fun b => { b with modified := true }) := by
    intro bs n
    induction bs generalizing n with
    | nil => cases n <;> exact .nil
    | cons b bs ih =>
        cases n with
        | zero => exact .cons b.editOf_modified (List.forall₂_same.mpr fun b _ => .refl b)
        | succ n => exact .cons (.refl b) (ih n)
  refine h.of_copies_eq ?_ ?_
  · rw [EditsLines, lines_modify _ _ fun b : Block α => { b with modified := true }]
    exact hmark p.lines index
  · apply List.ext_getElem?
    intro n
    simp only [List.getElem?_map, List.getElem?_modify]
    split <;> simp [Function.comp_def]

theorem withOffsetMove (h : p.NumberedBy id) (comment : String) :
    (p.withOffsetMove comment).NumberedBy (p.offsetLine?.elim id indexBefore) := by
  have hslot : p.offsetLine? = (if p.containsRelative then offsetSlot p.lines else none).map (·.line) := by
    rw [offsetLine?]
    split <;> rfl
  have hle : ∀ slot, p.offsetLine? = some slot → slot ≤ p.lines.length := fun slot => offsetLine?_le
  simp only [Program.withOffsetMove]
  cases hcase : if p.containsRelative then offsetSlot p.lines else none with
  | none =>
      rw [hslot, hcase]
      exact h
  | some slot =>
      rw [hcase] at hslot
      rw [hslot]
      have hinserted : ∀ feed spindle, (p.insertLine slot.line (offsetMove slot comment feed spindle)).NumberedBy
          (indexBefore slot.line) := fun feed spindle =>
        h.insertLine (hle _ hslot) (by simp only [offsetMove, Block.read_snd, Block.inert])
      dsimp only
      split
      · exact (hinserted _ _).markLine _
      · exact hinserted _ _

/-- Numbers after an edit of the lines. -/
theorem change (h : p.NumberedBy id) (edit : Edit α) (settings : Settings α) :
    (edit.change p settings).NumberedBy ((edit.insertion? p).elim id indexBefore) := by
  have hmapped : ∀ f : Block α → Block α, (p.mapLines f).entries.map (·.copies) = p.entries.map (·.copies) :=
    fun f => List.map_map
  cases edit with
  | mirror axis => exact h.of_copies_eq (editsLines_change (by simp) p settings) (hmapped _)
  | turn s =>
      refine h.of_copies_eq (editsLines_turn p s) (List.ext_getElem ?_ fun n _ _ => ?_)
      · simp [Edit.change, Program.turn]
      · simp only [Edit.change, Program.turn, List.getElem_map, List.getElem_mapIdx]
        split <;> rfl
  | stretch x y => exact h.of_copies_eq (editsLines_change (by simp) p settings) (hmapped _)
  | offset anchor extra => exact (h.withOffsetMove _).shiftLines _
  | dropZ => exact h.of_copies_eq (editsLines_change (by simp) p settings) (hmapped _)
  | follow surface => exact h

/-- Numbers after an edit. -/
theorem apply (h : p.NumberedBy id) {edit : Edit α} (hedit : ∀ surface, edit ≠ .follow surface)
    (settings : Settings α) (machine : Machine α) :
    (edit.apply p settings machine).1.NumberedBy ((edit.insertion? p).elim id indexBefore) := by
  by_cases hempty : p.isEmpty
  · have hentries : p.entries = [] := List.isEmpty_iff.mp hempty
    rw [edit.apply_of_isEmpty hempty]
    exact ⟨by simp [Program.lines, hentries], by simp [hentries]⟩
  · rw [Edit.apply_eq hedit (by simpa using hempty)]
    exact (h.change edit settings).place machine

end NumberedBy

/-- The steps of lines are those of all lines. -/
theorem line_mem_steps {p : Program α} {n : ℕ} : .line n ∈ p.steps ↔ n < p.lines.length := by
  have hlines : n ∈ p.steps.filterMap Step.line? ↔ n < p.lines.length := by
    rw [steps, filterMap_line?_stepsFrom, lines, List.length_map]
    simp
  rw [← hlines, List.mem_filterMap]
  refine ⟨fun h => ⟨_, h, rfl⟩, ?_⟩
  rintro ⟨step, hstep, hline⟩
  cases step with
  | line k =>
      obtain rfl : k = n := Option.some_inj.mp hline
      exact hstep
  | copy c => simp [Step.line?] at hline

/-- The indices of steps are those of lines. -/
theorem NumberedBy.index_lt {number : ℕ → ℕ} {p : Program α} (h : p.NumberedBy number) {step : Step α}
    (hstep : step ∈ p.steps) : step.index < p.lines.length := by
  cases step with
  | line n => exact line_mem_steps.mp hstep
  | copy c =>
      obtain ⟨e, he, hc⟩ := mem_copies_of_mem_steps (List.mem_filterMap.mpr ⟨_, hstep, rfl⟩)
      exact (h.copies e he c hc).1

/-- What is executed at a step has the number for its index. -/
theorem NumberedBy.number_eq {number : ℕ → ℕ} {p : Program α} (h : p.NumberedBy number) {step : Step α}
    (hstep : step ∈ p.steps) {b : Block α} (hb : step.block? p.lines = some b) : b.number = number step.index := by
  cases step with
  | line n => exact h.lines n b hb
  | copy c =>
      obtain ⟨e, he, hc⟩ := mem_copies_of_mem_steps (List.mem_filterMap.mpr ⟨_, hstep, rfl⟩)
      rw [← Option.some_inj.mp hb]
      exact (h.copies e he c hc).2

/-- Every number is the index of a line: that of each step is the index of its line, and the positions and the answers
that are found with them have such numbers. -/
structure NumbersLines (p : Program α) (written : List String) : Prop where
  steps : ∀ step ∈ p.steps, ∀ b, step.block? p.lines = some b → b.number = step.index
  positions : ∀ c ∈ p.coordinates, ∃ step ∈ p.steps, ∃ b, step.block? p.lines = some b ∧ c ∈ b.coordinates ∧
    c.line = step.index ∧ c.line < written.length
  located : ∀ line c, p.coordinates.ofLine? line = some c → c.line = line ∧ line < written.length
  figures : ∀ figure first last, p.coordinates.figureLines? figure = some (first, last) →
    first < written.length ∧ last < written.length

variable [Scalar α]

/-- The positions of a program that has been placed are those of its steps. -/
theorem coordinates_place (p : Program α) (machine : Machine α) :
    (p.place machine).coordinates = positions (p.place machine).executed := by
  rw [coordinates_place_eq, executed_place_eq]
  exact (Tool.shows_pass machine p.running).2.coordinates

/-- An offset that puts a line in makes the program one line longer. -/
theorem length_lines_apply {p : Program α} {edit : Edit α} {slot : ℕ} (h : edit.insertion? p = some slot)
    (settings : Settings α) (machine : Machine α) :
    (edit.apply p settings machine).1.lines.length = p.lines.length + 1 := by
  cases edit with
  | mirror | turn | stretch | dropZ | follow => simp [Edit.insertion?] at h
  | offset anchor extra =>
      change p.offsetLine? = some slot at h
      rw [offsetLine?] at h
      split at h
      · rename_i hrelative
        obtain ⟨s, hs, rfl⟩ := Option.map_eq_some_iff.mp h
        have hne : p.isEmpty = false := by
          rw [isEmpty, ← Bool.not_eq_true]
          intro hempty
          simp [lines, List.isEmpty_iff.mp hempty, offsetSlot] at hs
        obtain ⟨feed, spindle, after, hafter, hlines⟩ :=
          exists_lines_withOffsetMove hrelative hs settings.markers.offsetMoveComment
        rw [Edit.apply_eq (by simp) hne]
        have hedits : (p.withOffsetMove settings.markers.offsetMoveComment).EditsLines
            (((Edit.offset anchor extra).change p settings).place machine) :=
          (editsLines_shiftLines _ _).trans (editsLines_place _ machine)
        rw [← hedits.length_eq, hlines, List.length_append, List.length_cons, ← hafter.length_eq, ← Nat.add_assoc,
          ← List.length_append, List.take_append_drop]
      · simp at h

omit [Scalar α] in
/-- As long as the steps have the indices of their lines, so have the positions and the answers. -/
theorem NumbersLines.of_steps {p : Program α} {number : ℕ → ℕ} (h : p.NumberedBy number)
    (hsteps : ∀ step ∈ p.steps, ∀ b, step.block? p.lines = some b → b.number = step.index)
    (hpositions : p.coordinates = PartProgram.positions p.executed) {written : List String}
    (hwritten : written.length = p.lines.length) : p.NumbersLines written := by
  have hcoordinates : ∀ c ∈ p.coordinates, ∃ step ∈ p.steps, ∃ b, step.block? p.lines = some b ∧
      c ∈ b.coordinates ∧ c.line = step.index ∧ c.line < written.length := by
    intro c hc
    rw [hpositions, positions_eq] at hc
    obtain ⟨b, hb, hc⟩ := List.mem_flatMap.mp hc
    have hmem : some b ∈ p.steps.map (Step.block? p.lines) := by
      rw [p.map_block?_steps]
      exact List.mem_map_of_mem (List.mem_of_mem_filter hb)
    obtain ⟨step, hstep, hblock⟩ := List.mem_map.mp hmem
    have hline : c.line = step.index := (Block.figure_of_mem_coordinates hc).1.trans (hsteps step hstep b hblock)
    exact ⟨step, hstep, b, hblock, hc, hline, by rw [hline, hwritten]; exact h.index_lt hstep⟩
  have hbound : ∀ c ∈ p.coordinates, c.line < written.length := by
    intro c hc
    obtain ⟨-, -, -, -, -, -, hlt⟩ := hcoordinates c hc
    exact hlt
  refine ⟨hsteps, hcoordinates, ?_, ?_⟩
  · intro line c hc
    obtain ⟨hmem, rfl⟩ := Coordinates.exists_mem_of_ofLine? hc
    exact ⟨rfl, hbound c hmem⟩
  · intro figure first last hlines
    obtain ⟨⟨c, hc, rfl⟩, c', hc', rfl⟩ := Coordinates.exists_mem_of_figureLines? hlines
    exact ⟨hbound c hc, hbound c' hc'⟩

/-- Lines keep the numbers that they have been read with. When an offset puts a line in, the new line has its index for
its number, and the lines after it, with their copies, are numbered as if it were not there. So all numbers are
indices of lines unless a line is put in before the end, and then the line after the new one has the same number. -/
theorem numbers_apply (text : String) (settings : Settings α) (machine : Machine α) {edit : Edit α}
    (hedit : ∀ surface, edit ≠ .follow surface) :
    let p := read text settings machine
    let q := (edit.apply p settings machine).1
    (∀ step ∈ q.steps, ∀ b, step.block? q.lines = some b →
      b.number = (edit.insertion? p).elim step.index (indexBefore · step.index)) ∧
    ∃ written, (edit.apply p settings machine).2 = Text.ofLines written ∧ written.length = q.lines.length ∧
      (q.NumbersLines written ↔ ∀ slot, edit.insertion? p = some slot → slot = p.lines.length) := by
  intro p q
  have hnumbered : q.NumberedBy ((edit.insertion? p).elim id indexBefore) :=
    (NumberedBy.ofLines (Text.lines text) settings machine).apply hedit settings machine
  have hnumbers : ∀ step ∈ q.steps, ∀ b, step.block? q.lines = some b →
      b.number = (edit.insertion? p).elim step.index (indexBefore · step.index) := by
    intro step hstep b hb
    rw [hnumbered.number_eq hstep hb]
    cases edit.insertion? p <;> rfl
  have hplaced : ∃ r : Program α, q = r.place machine := by
    by_cases hempty : p.isEmpty
    · exact ⟨asRead (Text.lines text) settings, by simp only [q, edit.apply_of_isEmpty hempty]; rfl⟩
    · exact ⟨edit.change p settings, by simp only [q, Edit.apply_eq hedit (by simpa using hempty)]⟩
  have hpositions : q.coordinates = positions q.executed := by
    obtain ⟨r, hr⟩ := hplaced
    rw [hr, r.coordinates_place]
  obtain ⟨written, htext, hlength⟩ : ∃ written, (edit.apply p settings machine).2 = Text.ofLines written ∧
      written.length = q.lines.length := by
    by_cases hempty : p.isEmpty
    · refine ⟨[], by simp only [edit.apply_of_isEmpty hempty]; rfl, ?_⟩
      simp [q, edit.apply_of_isEmpty hempty, lines, List.isEmpty_iff.mp hempty]
    · have happly := Edit.apply_eq hedit (by simpa using hempty) settings machine
      exact ⟨_, congrArg Prod.snd happly, by rw [length_pass]; simp only [q, happly]⟩
  refine ⟨hnumbers, written, htext, hlength, ?_, fun hend => ?_⟩
  · intro hlines slot hslot
    by_contra hbefore
    have hnext : slot + 1 < q.lines.length := by
      have hle := Edit.insertion?_le hslot
      rw [length_lines_apply hslot]
      omega
    have hstep : Step.line (slot + 1) ∈ q.steps := line_mem_steps.mpr hnext
    have hindex := hlines.steps _ hstep q.lines[slot + 1] (List.getElem?_eq_getElem hnext)
    have hnumber := hnumbers _ hstep q.lines[slot + 1] (List.getElem?_eq_getElem hnext)
    rw [hindex, hslot] at hnumber
    simp [Step.index, indexBefore] at hnumber
  · refine .of_steps hnumbered (fun step hstep b hb => (hnumbers step hstep b hb).trans ?_) hpositions hlength
    cases hslot : edit.insertion? p with
    | none => rfl
    | some slot =>
        have hlt := hnumbered.index_lt hstep
        rw [length_lines_apply hslot, ← hend slot hslot] at hlt
        exact if_neg (by omega)

/-- The tool is lifted on the second line and cuts right after it. The move of the offset becomes the third line, and
the cut keeps its number 2, the copied line its number 6. -/
theorem numbers_lifted :
    let text := "G91\nG0 Z5\nG1 X10 F100\nM98 P1\nM30\nO1\nG1 X5\nM99\n"
    let edit : Edit Float := .offset .bottomLeft ⟨4, 4⟩
    let q := (edit.apply (read text .default .default) .default .default).1
    (∀ surface, edit ≠ .follow surface) ∧ edit.insertion? (read text .default .default) = some 2 ∧
      (∀ step ∈ q.steps, ∀ b, step.block? q.lines = some b → b.number = indexBefore 2 step.index) ∧
      ∃ written, (edit.apply (read text .default .default) .default .default).2 = Text.ofLines written ∧
        ¬q.NumbersLines written := by
  intro text edit q
  have hedit : ∀ surface, edit ≠ .follow surface := fun _ => nofun
  have hslot : edit.insertion? (read text .default .default) = some 2 := by decide +kernel
  have hlength : (read (α := Float) text .default .default).lines.length = 8 := by decide +kernel
  obtain ⟨hnumbers, written, htext, -, hlines⟩ := numbers_apply text .default .default hedit
  rw [hslot] at hnumbers
  refine ⟨hedit, hslot, hnumbers, written, htext, fun h => ?_⟩
  have hend := hlines.mp h 2 hslot
  rw [hlength] at hend
  exact absurd hend (by decide)

end Program

end PartProgram
