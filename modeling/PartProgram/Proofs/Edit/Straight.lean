import PartProgram.Proofs.Edit.Rewriting
import PartProgram.Proofs.Program.Reading

/-! # Programs without calls

A program without calls is read line by line, none of its lines brings copies along, and placing it
moves the tool through its lines.
-/

namespace PartProgram

variable {α : Type} [Scalar α]

/-! ### Reading a line -/

namespace ProgramReader

/-- A line without a call is read into a single block, with the modes that the line leaves. -/
structure ReadsLine (source : Source) (r : ProgramReader α) (l : ℕ × String) (r' : ProgramReader α)
    (b : Block α) : Prop where
  eq : r.readLine source l = (r', .ofLine b)
  modal : r'.reader.modal = r.reader.modal.after l.2
  hides : r'.hidden = source.markers.hides r.hidden l.2
  ended : r'.ended = (r.ended || (LineCodes.ofLine α l.2).endsProgram)
  text : b.text = l.2
  motion : b.motion = (r.reader.modal.after l.2).motion
  absolute : b.absolute = (r.reader.modal.after l.2).absolute
  feed : b.feed = (r.reader.modal.after l.2).feed
  spindle : b.spindle = (r.reader.modal.after l.2).spindle
  axes : b.axes = (lineWords l.2).axes
  i : b.i = (lineWords l.2).i
  j : b.j = (lineWords l.2).j
  machineFrame : b.machineFrame = (lineWords l.2 : LineWords α).machineFrame
  programEnd : b.programEnd = (LineCodes.ofLine α l.2).endsProgram
  hidden : b.hidden = source.markers.hides r.hidden l.2
  afterEnd : b.afterEnd = r.ended
  modified : b.modified = false

theorem exists_readsLine (source : Source) (r : ProgramReader α) {l : ℕ × String}
    (h : (LineCodes.ofLine α l.2).call? = none) : ∃ r' b, ReadsLine source r l r' b := by
  have hcall : (Block.read l.1 l.2 r.reader.modal).2.call = none := by
    simp [Block.read_snd, h]
  have hend : (Block.read l.1 l.2 r.reader.modal).2.programEnd = (LineCodes.ofLine α l.2).endsProgram := by
    simp [Block.read_snd, LineCodes.endsProgram]
  have heq : r.readLine source l =
      ({ reader := { r.reader with modal := r.reader.modal.after l.2 }
         hidden := source.markers.hides r.hidden l.2
         ended := r.ended || (LineCodes.ofLine α l.2).endsProgram },
        .ofLine
          { (Block.read l.1 l.2 r.reader.modal).2 with
            hidden := source.markers.hides r.hidden l.2
            footer := Markers.onLine source.markers.setupFooter l.2
            afterEnd := r.ended }) := by
    simp only [readLine, Block.read_fst, hcall, hend, Entry.ofLine]
  refine ⟨_, _, heq, rfl, rfl, rfl, ?_, ?_, ?_, ?_, ?_, ?_, ?_, ?_, ?_, ?_, rfl, rfl, ?_⟩ <;>
    simp [Block.read_snd, Block.inert, lineWords, LineCodes.endsProgram]

end ProgramReader

theorem Block.fromText_unplaced {b : Block α} : b.unplaced.FromText ↔ b.FromText :=
  ⟨fun h => h.of_eq rfl rfl rfl rfl rfl fun hm => ⟨hm, rfl, rfl, rfl⟩,
    fun h => h.of_eq rfl rfl rfl rfl rfl fun hm => ⟨hm, rfl, rfl, rfl⟩⟩

namespace Program

/-- Every block of a program that has been read is a reading of its text. -/
theorem exists_read_of_mem_lines {lines : List String} {settings : Settings α} {machine : Machine α} {b : Block α}
    (hb : b ∈ (ofLines lines settings machine).lines) : ∃ n m, b.asRead = (Block.read n b.text m).2 := by
  rw [ofLines_eq] at hb
  obtain ⟨b₀, hb₀, heq⟩ := exists_mem_of_mem_lines_place hb
  obtain ⟨n, m, hread⟩ := exists_read_of_mem_executed lines settings (lines_subset_executed _ hb₀)
  have hsame : b.asRead = b₀.asRead := (congrArg Block.asRead heq).symm
  have htext : b.text = lines.getD n "" := by
    have htext := congrArg Block.text (hsame.trans hread)
    rw [Block.read_snd] at htext
    exact htext
  exact ⟨n, m, by rw [hsame, hread, htext]⟩

theorem fromText_ofLines (lines : List String) (settings : Settings α) (machine : Machine α) :
    ∀ b ∈ (ofLines lines settings machine).lines, b.FromText := by
  intro b hb
  obtain ⟨n, m, hread⟩ := exists_read_of_mem_lines hb
  exact Block.fromText_of_asRead hread

/-- A program without calls has lines without calls. -/
theorem codes_of_call_eq_none {lines : List String} {settings : Settings α} {machine : Machine α}
    (h : ∀ b ∈ (ofLines lines settings machine).lines, b.call = none) :
    ∀ line ∈ lines, (LineCodes.ofLine α line).call? = none := by
  intro line hline
  rw [← texts_ofLines lines settings machine] at hline
  obtain ⟨b, hb, rfl⟩ := List.mem_map.mp hline
  rw [← (fromText_ofLines lines settings machine b hb).call]
  exact h b hb

/-! ### Programs without copies -/

/-- No line brings copies along. -/
def IsStraight (p : Program α) : Prop := ∀ e ∈ p.entries, e.copies = []

/-- Without calls nothing is copied. -/
theorem isStraight_asRead {lines : List String} {settings : Settings α}
    (h : ∀ line ∈ lines, (LineCodes.ofLine α line).call? = none) : (asRead lines settings).IsStraight := by
  have hread : ∀ (source : Source) (r : ProgramReader α) (ls : List (ℕ × String)),
      (∀ l ∈ ls, (LineCodes.ofLine α l.2).call? = none) →
      ∀ e ∈ (pass (ProgramReader.readLine source) r ls).2, e.copies = [] := by
    intro source r ls hls e he
    obtain ⟨r, l, hl, rfl⟩ := exists_of_mem_pass he
    obtain ⟨r', b, hb⟩ := ProgramReader.exists_readsLine source r (hls l hl)
    rw [hb.eq]
    rfl
  refine hread _ _ _ fun l hl => h l.2 ?_
  rw [← map_snd_mapIdx lines]
  exact List.mem_map_of_mem hl

namespace IsStraight

variable {p q : Program α}

omit [Scalar α] in
theorem of_copies (h : p.IsStraight) (hq : q.entries.map (·.copies) = p.entries.map (·.copies)) :
    q.IsStraight := by
  intro e he
  have hmem : e.copies ∈ p.entries.map (·.copies) := hq ▸ List.mem_map_of_mem he
  obtain ⟨e', he', heq⟩ := List.mem_map.mp hmem
  rw [← heq]
  exact h e' he'

omit [Scalar α] in
theorem eq_ofLine (h : p.IsStraight) : p.entries = p.lines.map .ofLine := by
  rw [lines, List.map_map]
  conv_lhs => rw [← List.map_id p.entries]
  apply List.map_congr_left
  intro e he
  obtain ⟨line, copies⟩ := e
  have hcopies : copies = [] := h _ he
  rw [hcopies]
  rfl

omit [Scalar α] in
/-- A program without copies runs its lines. -/
theorem executed_eq (h : p.IsStraight) : p.executed = p.lines := by
  have hone : ∀ e ∈ p.entries, e.executed = [e.line] := by
    intro e he
    rw [Entry.executed, h e he, List.map_nil]
  rw [executed, List.flatMap_congr hone, lines, List.map_eq_flatMap]

theorem place_eq (h : p.IsStraight) (machine : Machine α) :
    p.place machine =
      let placed := pass (Tool.step machine) (.atStart machine) p.lines
      { p with
        entries := placed.2.map .ofLine
        extent := placed.1.extent
        coordinates := placed.1.coordinates.toList
        figures := placed.1.figures } := by
  have hpass : ∀ (lines : Array (Block α)) (t : Tool α) (bs : List (Block α)),
      pass (Entry.place machine lines) t (bs.map .ofLine) =
        ((pass (Tool.step machine) t bs).1, (pass (Tool.step machine) t bs).2.map .ofLine) := by
    intro lines t bs
    induction bs generalizing t with
    | nil => rfl
    | cons b bs ih => simp [pass_cons, ih, Entry.place, Entry.ofLine]
  have hentries := h.eq_ofLine
  simp only [Program.place]
  rw [hentries, hpass]

/-- Placing a program without copies moves the tool through its lines. -/
theorem lines_place (h : p.IsStraight) (machine : Machine α) :
    (p.place machine).lines = (pass (Tool.step machine) (.atStart machine) p.lines).2 := by
  rw [h.place_eq, lines, List.map_map]
  exact List.map_id _

theorem place (h : p.IsStraight) (machine : Machine α) : (p.place machine).IsStraight := by
  rw [h.place_eq]
  intro e he
  obtain ⟨b, -, rfl⟩ := List.mem_map.mp he
  rfl

omit [Scalar α] in
theorem mapLines (h : p.IsStraight) (f : Block α → Block α) : (p.mapLines f).IsStraight :=
  h.of_copies (by simp [Program.mapLines, Function.comp_def])

omit [Scalar α] in
theorem insertLine (h : p.IsStraight) (index : ℕ) (b : Block α) : (p.insertLine index b).IsStraight := by
  intro e he
  rcases List.eq_or_mem_of_mem_insertIdx he with rfl | he
  · rfl
  · obtain ⟨e', he', rfl⟩ := List.mem_map.mp he
    simp [h e' he']

theorem turn (h : p.IsStraight) (s : Similarity α) : (p.turn s).IsStraight := by
  intro e he
  obtain ⟨n, hn, rfl⟩ := List.mem_mapIdx.mp he
  have hmem : p.entries[n] ∈ p.entries := List.getElem_mem hn
  split <;> exact (h _ hmem : p.entries[n].copies = [])

theorem shiftLines (h : p.IsStraight) (delta : Point α) : (p.shiftLines delta).IsStraight := by
  refine h.of_copies ?_
  refine map_pass ?_ _ _
  intro pending e
  split <;> rfl

omit [Scalar α] in
theorem modifyLine (h : p.IsStraight) (index : ℕ) (f : Block α → Block α) :
    IsStraight { p with entries := p.entries.modify index fun e => { e with line := f e.line } } := by
  refine h.of_copies ?_
  apply List.ext_getElem?
  intro n
  simp only [List.getElem?_map, List.getElem?_modify]
  split <;> simp [Function.comp_def]

theorem withOffsetMove (h : p.IsStraight) (comment : String) : (p.withOffsetMove comment).IsStraight := by
  simp only [Program.withOffsetMove]
  split
  · exact h
  · split
    · exact (h.insertLine _ _).modifyLine _ fun b => { b with modified := true }
    · exact h.insertLine _ _

theorem change (h : p.IsStraight) (edit : Edit α) (settings : Settings α) :
    (edit.change p settings).IsStraight := by
  cases edit with
  | mirror axis => exact h.mapLines _
  | turn similarity => exact h.turn similarity
  | stretch x y => exact h.mapLines _
  | offset anchor extra => exact (h.withOffsetMove _).shiftLines _
  | dropZ => exact h.mapLines _
  | follow surface => exact h

end IsStraight

theorem isStraight_ofLines {lines : List String} {settings : Settings α}
    (h : ∀ line ∈ lines, (LineCodes.ofLine α line).call? = none) (machine : Machine α) :
    (ofLines lines settings machine).IsStraight :=
  (isStraight_asRead h).place machine

omit [Scalar α] in
/-- A program that consists of lines alone. -/
theorem isStraight_of_entries_eq {p : Program α} {bs : List (Block α)} (h : p.entries = bs.map .ofLine) :
    p.IsStraight ∧ p.lines = bs := by
  constructor
  · intro e he
    obtain ⟨b, -, rfl⟩ := List.mem_map.mp (h ▸ he)
    rfl
  · rw [lines, h, List.map_map]
    exact List.map_id _

/-- A program of blocks is placed block by block. -/
theorem ofBlocks_eq (blocks : List (Block α)) (machine : Machine α) :
    let placed := pass (Tool.step machine) (.atStart machine) blocks
    (ofBlocks blocks machine).lines = placed.2 ∧ (ofBlocks blocks machine).executed = placed.2 ∧
      (ofBlocks blocks machine).extent = placed.1.extent ∧
      (ofBlocks blocks machine).coordinates = placed.1.coordinates.toList := by
  have hplaced : ∀ p : Program α, p.entries = blocks.map .ofLine →
      let placed := pass (Tool.step machine) (.atStart machine) blocks
      (p.place machine).lines = placed.2 ∧ (p.place machine).executed = placed.2 ∧
        (p.place machine).extent = placed.1.extent ∧
        (p.place machine).coordinates = placed.1.coordinates.toList := by
    intro p hentries
    obtain ⟨hstraight, hlines⟩ := isStraight_of_entries_eq hentries
    have hplaced := hstraight.lines_place machine
    have hplace := hstraight.place_eq machine
    rw [hlines] at hplaced hplace
    refine ⟨hplaced, (hstraight.place machine).executed_eq.trans hplaced, ?_, ?_⟩
    · exact congrArg Program.extent hplace
    · exact congrArg Program.coordinates hplace
  exact hplaced _ rfl

end Program

end PartProgram
