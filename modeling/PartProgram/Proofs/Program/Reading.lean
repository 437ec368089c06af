import PartProgram.Proofs.Program.Order
import PartProgram.Proofs.Program.Placing

/-! # Programs as read

A program is read first and placed afterwards. What reading finds does not depend on the machine.
-/

namespace PartProgram

variable {α : Type} [Scalar α]

namespace Program

theorem map_snd_mapIdx (lines : List String) : (lines.mapIdx fun n line => (n, line)).map Prod.snd = lines := by
  simp [List.mapIdx_eq_zipIdx_map, Function.comp_def]

section

variable (lines : List String) (settings : Settings α)

/-- The program read from its lines, before it is placed. -/
def asRead : Program α :=
  let source := Source.ofLines α lines settings.calls settings.markers
  let start : ProgramReader α := ⟨⟨Modal.initial, none⟩, false, false⟩
  let (last, entries) := pass (ProgramReader.readLine source) start
    (lines.mapIdx fun n line => (n, line))
  { (empty : Program α) with
    entries
    containsArcs := last.reader.modal.containsArc
    containsRelative := last.reader.modal.containsRelative }

theorem ofLines_eq (machine : Machine α) :
    ofLines lines settings machine = (asRead lines settings).place machine := rfl

/-- The blocks that run are the lines of the order of execution, read under one modal state. -/
theorem executed_asRead :
    let s := Source.ofLines α lines settings.calls settings.markers
    (asRead lines settings).executed.map Block.asRead =
        (pass s.readAt Modal.initial ((s.order α).map Prod.snd)).2 ∧
      (asRead lines settings).executed.map (fun b => (b.inlined, b.number)) = s.order α := by
  obtain ⟨_, hruns⟩ := Source.runs_ofLines (α := α) lines settings.calls settings.markers
  exact ⟨by rw [hruns.read]; rfl, hruns.steps⟩

/-- Every block that runs has been read from the line with its number. -/
theorem exists_read_of_mem_executed {b : Block α} (h : b ∈ (asRead lines settings).executed) :
    ∃ n m, b.asRead = (Block.read n (lines.getD n "") m).2 := by
  obtain ⟨hread, -⟩ := executed_asRead lines settings
  have hmem := List.mem_map_of_mem (f := Block.asRead) h
  rw [hread] at hmem
  obtain ⟨m, n, -, hb⟩ := exists_of_mem_pass hmem
  refine ⟨n, m, ?_⟩
  simpa [Source.readAt, Source.ofLines] using hb.symm

end

omit [Scalar α] in
theorem lines_subset_executed (p : Program α) : p.lines ⊆ p.executed := by
  intro b hb
  obtain ⟨e, he, rfl⟩ := List.mem_map.mp hb
  exact List.mem_flatMap.mpr ⟨e, he, by simp [Entry.executed]⟩

/-- Copies follow their lines, and they alone are inlined. -/
def CopiesInlined (p : Program α) : Prop :=
  ∀ e ∈ p.entries, e.line.inlined = false ∧ ∀ c ∈ e.copies, c.block.inlined = true

omit [Scalar α] in
theorem CopiesInlined.filter_executed {p : Program α} (h : p.CopiesInlined) :
    p.executed.filter (fun b => !b.inlined) = p.lines := by
  have hentry : ∀ e ∈ p.entries, e.executed.filter (fun b => !b.inlined) = [e.line] := by
    intro e he
    obtain ⟨hline, hcopies⟩ := h e he
    simpa [Entry.executed, hline, List.filter_eq_nil_iff] using hcopies
  rw [executed, List.filter_flatMap, List.flatMap_congr hentry, lines, List.map_eq_flatMap]

theorem CopiesInlined.place {p : Program α} (h : p.CopiesInlined)
    (hp : ∀ b ∈ p.lines, b.modified = false) (machine : Machine α) :
    (p.place machine).CopiesInlined := by
  intro e he
  have hmem : e.unplaced ∈ p.entries.map Entry.unplaced :=
    entries_place hp machine ▸ List.mem_map_of_mem he
  obtain ⟨e', he', heq⟩ := List.mem_map.mp hmem
  obtain ⟨hline, hcopies⟩ := h e' he'
  refine ⟨(congrArg (fun e => e.line.inlined) heq).symm.trans hline, ?_⟩
  intro c hc
  have hc' : (⟨c.definition, c.block.unplaced⟩ : Copy α) ∈ e'.unplaced.copies := by
    rw [heq]
    exact List.mem_map.mpr ⟨c, hc, rfl⟩
  obtain ⟨d, hd, hdc⟩ := List.mem_map.mp hc'
  exact (congrArg (fun c => c.block.inlined) hdc).symm.trans (hcopies d hd)

section

variable (lines : List String) (settings : Settings α)

theorem copiesInlined_asRead : (asRead lines settings).CopiesInlined := by
  obtain ⟨_, hruns⟩ := Source.runs_ofLines (α := α) lines settings.calls settings.markers
  exact hruns.copied

theorem texts_asRead : (asRead lines settings).lines.map (·.text) = lines := by
  have hline : ∀ (source : Source) (r : ProgramReader α) (l : ℕ × String),
      (r.readLine source l).2.line.text = l.2 := by
    intro source r l
    simp only [ProgramReader.readLine, Block.read_snd, Block.inert]
  rw [Program.lines, List.map_map]
  exact (map_pass (hline _) _ _).trans (map_snd_mapIdx lines)

theorem modified_asRead : ∀ b ∈ (asRead lines settings).lines, b.modified = false := by
  intro b hb
  obtain ⟨n, m, hread⟩ := exists_read_of_mem_executed lines settings (lines_subset_executed _ hb)
  have hmodified := congrArg Block.modified hread
  rw [Block.read_snd] at hmodified
  exact hmodified

theorem texts_ofLines (machine : Machine α) : (ofLines lines settings machine).lines.map (·.text) = lines := by
  have h := congrArg (List.map Block.text) ((asRead lines settings).lines_place machine)
  rw [List.map_map, List.map_map] at h
  exact h.trans (texts_asRead lines settings)

/-- Placing does not change which lines run, nor how they are read. -/
theorem executed_ofLines (machine : Machine α) :
    let s := Source.ofLines α lines settings.calls settings.markers
    (ofLines lines settings machine).executed.map Block.asRead =
        (pass s.readAt Modal.initial ((s.order α).map Prod.snd)).2 ∧
      (ofLines lines settings machine).executed.map (fun b => (b.inlined, b.number)) = s.order α := by
  obtain ⟨hread, hsteps⟩ := executed_asRead lines settings
  have hplaced : ∀ {β : Type} (f : Block α → β), (∀ b : Block α, f b.unplaced = f b) →
      (ofLines lines settings machine).executed.map f = (asRead lines settings).executed.map f := fun _ hf =>
    map_executed_place (modified_asRead lines settings) machine hf
  exact ⟨(hplaced _ fun _ => rfl).trans hread, (hplaced _ fun _ => rfl).trans hsteps⟩

/-- The texts of what runs are those of the lines in the order of execution. -/
theorem texts_executed (machine : Machine α) :
    (ofLines lines settings machine).executed.map (·.text) =
      ((Source.ofLines α lines settings.calls settings.markers).order α).map
        fun step => lines.getD step.2 "" := by
  obtain ⟨hread, -⟩ := executed_ofLines lines settings machine
  have htexts := congrArg (List.map Block.text) hread
  rw [List.map_map] at htexts
  refine htexts.trans ((map_pass (f := fun n => lines.getD n "") ?_ _ _).trans (by rw [List.map_map]; rfl))
  intro m n
  rw [Source.readAt, Block.read_snd]
  simp [Block.inert, Source.ofLines]

/-- Placing a program that has been read cannot be told from reading it for the new machine. -/
theorem place_ofLines (machine machine' : Machine α) :
    (ofLines lines settings machine).place machine' = ofLines lines settings machine' :=
  place_place (modified_asRead lines settings) machine machine'

end

end Program

end PartProgram
