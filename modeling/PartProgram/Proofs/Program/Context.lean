import PartProgram.Proofs.Number.Exact
import PartProgram.Proofs.Program.Reading

/-! # Lines in context

A line says the same under all modes; only the modes themselves are handed on. So the lines that name and end subroutine
bodies can be found by reading every line on its own.
-/

namespace PartProgram

variable {α : Type} [Scalar α]

/-! ### Two readings of a line -/

/-- Two blocks with the same words, apart from the modes in effect. -/
structure Block.SameWords (b b' : Block α) : Prop where
  axes : b'.axes = b.axes
  i : b'.i = b.i
  j : b'.j = b.j
  machineFrame : b'.machineFrame = b.machineFrame
  call : b'.call = b.call
  label : b'.label = b.label
  returns : b'.returns = b.returns
  programEnd : b'.programEnd = b.programEnd
  extra : b'.extra = b.extra

/-- What some words make of the modes `m`: of each kind the last word that is well-formed is in effect, or what was in
effect before. That there has been an arc, or a relative distance, stays true. -/
structure Modal.LeftBy (m : Modal α) (ws : List Word) (m' : Modal α) : Prop where
  motion : m'.motion = (ws.filterMap (Word.motion? α)).getLast?.getD m.motion
  absolute : m'.absolute = (ws.filterMap (Word.distance? α)).getLast?.getD m.absolute
  feed : m'.feed = (ws.filterMap Word.feed?).getLast?.getD m.feed
  spindle : m'.spindle = (ws.filterMap Word.spindle?).getLast?.getD m.spindle
  containsArc : m'.containsArc = true ↔
    m.containsArc = true ∨ ∃ w ∈ ws, ∃ winding, w.motion? α = some (.arc winding)
  containsRelative : m'.containsRelative = true ↔
    m.containsRelative = true ∨ ∃ w ∈ ws, w.distance? α = some false

/-- The block has the modes that are in effect. -/
structure Block.HasModes (b : Block α) (m : Modal α) : Prop where
  motion : b.motion = m.motion
  absolute : b.absolute = m.absolute
  feed : b.feed = m.feed
  spindle : b.spindle = m.spindle

theorem Modal.leftBy_after (m : Modal α) (line : String) : m.LeftBy (wordsOf line) (m.after line) where
  motion := Word.latest_eq_getLast? ..
  absolute := Word.latest_eq_getLast? ..
  feed := Word.latest_eq_getLast? ..
  spindle := Word.latest_eq_getLast? ..
  containsArc := by
    have harc : ∀ motion : Motion, motion.isArc = true ↔ ∃ winding, motion = .arc winding := by
      intro motion
      cases motion <;> simp [Motion.isArc, Motion.winding?]
    simp [after, Option.any_eq_true, harc]
  containsRelative := by simp [after]

theorem Block.sameWords_read (number : ℕ) (line : String) (m m' : Modal α) :
    (read number line m).2.SameWords (read number line m').2 := by
  constructor <;> rw [read_snd, read_snd]

theorem Block.hasModes_read (number : ℕ) (line : String) (m : Modal α) :
    (read number line m).2.HasModes (read number line m).1 := by
  constructor <;> rw [read_snd, read_fst]

/-! ### Landmarks in context -/

/-- A line without text says nothing. -/
theorem LineCodes.ofLine_empty : LineCodes.ofLine α "" = {} := by
  rw [ofLine_eq, wordsOf_empty]
  rfl

namespace Landmarks

variable {lines : List String} {n id : ℕ}

theorem mem_labels_iff : (n, id) ∈ (ofLines α lines).labels ↔ (LineCodes.ofLine α (lines.getD n "")).o = some id := by
  have hmem : (n, id) ∈ (ofLines α lines).labels ↔
      ∃ line, lines[n]? = some line ∧ (LineCodes.ofLine α line).o = some id := by
    simp [labels_ofLines, List.mem_filterMap, List.mem_zipIdx_iff_getElem?]
  rw [hmem, List.getD_eq_getElem?_getD]
  cases lines[n]? <;> simp [LineCodes.ofLine_empty]

theorem mem_returns_iff : n ∈ (ofLines α lines).returns ↔ (LineCodes.ofLine α (lines.getD n "")).returns = true := by
  have hmem : n ∈ (ofLines α lines).returns ↔
      ∃ line, lines[n]? = some line ∧ (LineCodes.ofLine α line).returns = true := by
    simp [returns_ofLines, List.mem_filter, List.mem_zipIdx_iff_getElem?]
  rw [hmem, List.getD_eq_getElem?_getD]
  cases lines[n]? <;> simp [LineCodes.ofLine_empty, LineCodes.returns]

end Landmarks

namespace Program

variable (lines : List String) (settings : Settings α) (machine : Machine α)

/-- The lines of a program have the codes that they have on their own. -/
theorem codes_lines_ofLines : (ofLines lines settings machine).lines.map (fun b => (b.number, b.label, b.returns)) =
    lines.zipIdx.map fun l => (l.2, (LineCodes.ofLine α l.1).o, (LineCodes.ofLine α l.1).returns) := by
  have hline : ∀ (source : Source) (r : ProgramReader α) (l : ℕ × String),
      let b := (r.readLine source l).2.line
      (b.number, b.label, b.returns) = (l.1, (LineCodes.ofLine α l.2).o, (LineCodes.ofLine α l.2).returns) := by
    intro source r l
    simp only [ProgramReader.readLine, Block.read_snd, Block.inert, LineCodes.returns]
  have hread : (asRead lines settings).lines.map (fun b => (b.number, b.label, b.returns)) =
      lines.zipIdx.map fun l => (l.2, (LineCodes.ofLine α l.1).o, (LineCodes.ofLine α l.1).returns) := by
    rw [Program.lines, List.map_map]
    refine (map_pass (hline _) _ _).trans ?_
    rw [List.mapIdx_eq_zipIdx_map, List.map_map]
    rfl
  have hplace := congrArg (List.map fun b : Block α => (b.number, b.label, b.returns))
    ((asRead lines settings).lines_place machine)
  rw [List.map_map, List.map_map] at hplace
  exact hplace.trans hread

/-- Whatever is executed has the codes of its line. -/
theorem codes_of_mem_executed {b : Block α} (hb : b ∈ (ofLines lines settings machine).executed) :
    b.label = (LineCodes.ofLine α (lines.getD b.number "")).o ∧
      b.returns = (LineCodes.ofLine α (lines.getD b.number "")).returns := by
  obtain ⟨hread, -⟩ := executed_ofLines lines settings machine
  have hmem := List.mem_map_of_mem (f := Block.asRead) hb
  rw [hread] at hmem
  obtain ⟨m, n, -, hn⟩ := exists_of_mem_pass hmem
  rw [Source.readAt, Block.read_snd] at hn
  have hnumber : n = b.number := congrArg Block.number hn
  have hline : (Source.ofLines α lines settings.calls settings.markers).lines.getD n "" = lines.getD b.number "" := by
    simp [Source.ofLines, hnumber]
  rw [hline] at hn
  exact ⟨(congrArg Block.label hn).symm, (congrArg Block.returns hn).symm⟩

/-- A line says the same under all modes, and leaves modes that come from its own words or were there before. So
the labels and returns that are found by reading every line on its own are those of the lines of the program, and
of everything that is executed, as they are read in context. -/
theorem read_in_context :
    (∀ (number : ℕ) (line : String) (m m' : Modal α),
      let here := Block.read number line m
      let there := Block.read number line m'
      here.2.SameWords there.2 ∧ there.1.codes = here.1.codes ∧
        m.LeftBy (wordsOf line) here.1 ∧ here.2.HasModes here.1) ∧
    let p := ofLines lines settings machine
    let marks := Landmarks.ofLines α lines
    marks.labels = p.lines.filterMap (fun b => b.label.map (b.number, ·)) ∧
      marks.returns = (p.lines.filter (·.returns)).map (·.number) ∧
      ∀ b ∈ p.executed, (∀ id, (b.number, id) ∈ marks.labels ↔ b.label = some id) ∧
        (b.number ∈ marks.returns ↔ b.returns = true) := by
  have hcodes := codes_lines_ofLines lines settings machine
  refine ⟨fun number line m m' => ?_, ?_, ?_, fun b hb => ?_⟩
  · refine ⟨Block.sameWords_read .., ?_, ?_, Block.hasModes_read ..⟩
    · rw [Block.read_fst, Block.read_fst]
      rfl
    · rw [Block.read_fst]
      exact m.leftBy_after line
  · have hlabels := congrArg (List.filterMap fun l : ℕ × Option ℕ × Bool => l.2.1.map (l.1, ·)) hcodes
    rw [List.filterMap_map, List.filterMap_map] at hlabels
    rw [Landmarks.labels_ofLines]
    exact hlabels.symm
  · have hreturns := congrArg (fun ls : List (ℕ × Option ℕ × Bool) => (ls.filter (·.2.2)).map Prod.fst) hcodes
    simp only [List.filter_map, List.map_map] at hreturns
    rw [Landmarks.returns_ofLines]
    exact hreturns.symm
  · obtain ⟨hlabel, hreturns⟩ := codes_of_mem_executed lines settings machine hb
    rw [hlabel, hreturns]
    exact ⟨fun id => Landmarks.mem_labels_iff, Landmarks.mem_returns_iff⟩

/-- A body that is called with relative distances: its label and its return are found without them. -/
theorem read_in_context_of_call :
    let _ := PlaneFunctions.axial
    let lines := ["G91 M98 P7", "M30", "O7 (drill)", "G1 X1", "m99 O"]
    let p := ofLines lines .default (.default : Machine ℚ)
    let marks := Landmarks.ofLines ℚ lines
    marks.labels = [(2, 7)] ∧ marks.returns = [4] ∧
      p.executed.map (fun b => (b.number, b.absolute)) =
        [(0, false), (3, false), (1, false), (2, false), (3, false), (4, false)] ∧
      ∀ b ∈ p.executed, (∀ id, (b.number, id) ∈ marks.labels ↔ b.label = some id) ∧
        (b.number ∈ marks.returns ↔ b.returns = true) := by
  intro _ lines p marks
  obtain ⟨-, -, -, hmarks⟩ := read_in_context lines .default (.default : Machine ℚ)
  exact ⟨by decide +kernel, by decide +kernel, by decide +kernel, hmarks⟩

end Program

end PartProgram
