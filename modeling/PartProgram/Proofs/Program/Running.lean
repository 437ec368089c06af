import PartProgram.Proofs.Edit.Straight

/-! # Running a program

Placing moves the tool through everything that runs, one block after the other. The copies at a call
run as the lines that they were taken from leave them.
-/

namespace PartProgram

variable {α : Type} [Scalar α]

/-- A block runs an arc if its motion is one and it has an offset. -/
theorem Block.isSome_arcBetween (b : Block α) (p q : Point α) :
    (b.arcBetween p q).isSome = (b.motion.isArc && (b.i.isSome || b.j.isSome)) := by
  rw [arcBetween, Motion.isArc]
  cases b.motion.winding? with
  | none => rfl
  | some w => cases b.i.isSome || b.j.isSome <;> simp

/-- A block without X and Y words stays over the point where it starts. -/
theorem Block.targetFrom_xy_of_not_hasXY {b : Block α} (h : b.hasXY = false) (machine : Machine α) (p : Position α) :
    (b.targetFrom machine p).xy = p.xy := by
  obtain ⟨hx, hy⟩ := Bool.or_eq_false_iff.mp h
  rw [x, Option.isSome_eq_false_iff, Option.isNone_iff_eq_none] at hx
  rw [y, Option.isSome_eq_false_iff, Option.isNone_iff_eq_none] at hy
  simp only [targetFrom, Position.xy, axisTarget, hx, hy]

namespace Tool

variable (machine : Machine α) (t : Tool α) (b : Block α)

omit [Scalar α] in
@[simp]
theorem setPen_position (engaged : Bool) : (t.setPen engaged).position = t.position := by
  rw [setPen]
  split <;> rfl

omit [Scalar α] in
@[simp]
theorem setPen_penDown (engaged : Bool) : (t.setPen engaged).penDown = engaged := by
  cases engaged <;> cases h : t.penDown <;> simp [setPen, h]

omit [Scalar α] in
theorem setPen_startPending (engaged : Bool) :
    (t.setPen engaged).startPending = (t.startPending || (engaged && !t.penDown)) := by
  rw [setPen]
  split
  · rename_i h
    rw [h, Bool.or_true]
  · rename_i h
    rw [Bool.not_eq_true] at h
    rw [h, Bool.or_false]

omit [Scalar α] in
@[simp]
theorem setPen_extent (engaged : Bool) : (t.setPen engaged).extent = t.extent := by
  rw [setPen]
  split <;> rfl

omit [Scalar α] in
@[simp]
theorem setPen_coordinates (engaged : Bool) : (t.setPen engaged).coordinates = t.coordinates := by
  rw [setPen]
  split <;> rfl

@[simp]
theorem addExtent_coordinates : (t.addExtent b).coordinates = t.coordinates := by
  simp only [addExtent]
  split <;> split <;> rfl

@[simp]
theorem addExtent_penDown : (t.addExtent b).penDown = t.penDown := by
  simp only [addExtent]
  split <;> split <;> rfl

@[simp]
theorem addExtent_position : (t.addExtent b).position = t.position := by
  simp only [addExtent]
  split <;> split <;> rfl

/-- A step leaves the tool where the block takes it. -/
@[simp]
theorem step_position : (t.step machine b).1.position = b.targetFrom machine t.position := by
  simp only [step]
  split
  · simp [Block.placementFrom]
  · rfl

/-- A step changes nothing but the place of a block. -/
theorem eq_of_step : (t.step machine b).2 = { b with place := (t.step machine b).2.place } := by
  rw [step]
  split <;> rfl

@[simp]
theorem targetFrom_step (p : Position α) : (t.step machine b).2.targetFrom machine p = b.targetFrom machine p := by
  rw [eq_of_step]
  rfl

@[simp]
theorem arcBetween_step (p q : Point α) : (t.step machine b).2.arcBetween p q = b.arcBetween p q := by
  rw [eq_of_step]
  rfl

@[simp]
theorem step_origin : (t.step machine b).2.place.origin = t.position := by
  simp only [step]
  split <;> rfl

@[simp]
theorem step_target : (t.step machine b).2.place.target = b.targetFrom machine t.position := by
  simp only [step]
  split <;> rfl

@[simp]
theorem step_arc : (t.step machine b).2.place.arc =
    b.arcBetween t.position.xy (b.targetFrom machine t.position).xy := by
  simp only [step]
  split <;> rfl

end Tool

/-- What a block that has been read shows of its line. -/
theorem Block.of_asRead_eq {b : Block α} {n : ℕ} {line : String} {m : Modal α}
    (h : b.asRead = (Block.read n line m).2) : b.FromText ∧ b.modified = false ∧ b.text = line := by
  have htext := congrArg Block.text h
  have hmodified := congrArg Block.modified h
  rw [Block.read_snd] at htext hmodified
  change b.text = line at htext
  exact ⟨Block.fromText_of_asRead (htext ▸ h), hmodified, htext⟩

/-! ### What runs -/

namespace Program

variable {p : Program α}

omit [Scalar α] in
/-- What runs when the program is placed. -/
def running (p : Program α) : List (Block α) :=
  p.entries.flatMap fun e => e.line :: e.copies.map fun c => (c.follow p.lines.toArray).block

omit [Scalar α] in
/-- Every line runs. -/
theorem mem_executed_of_mem_lines {b : Block α} (h : b ∈ p.lines) : b ∈ p.executed := by
  obtain ⟨e, he, rfl⟩ := List.mem_map.mp h
  exact List.mem_flatMap.mpr ⟨e, he, List.mem_cons_self⟩

omit [Scalar α] in
/-- As long as no line has been changed, the copies run as they are. -/
theorem running_of_unmodified (h : ∀ b ∈ p.lines, b.modified = false) : p.running = p.executed := by
  have hlines : ∀ b ∈ p.lines.toArray, b.modified = false := by simpa using h
  simp only [running, executed, Copy.follow_of_unmodified hlines]
  rfl

/-- The copies of an entry are placed one after the other. -/
theorem pass_copies (machine : Machine α) (lines : Array (Block α)) (t : Tool α) (cs : List (Copy α)) :
    let placed := pass (fun t c =>
      ((t.step machine (Copy.follow lines c).block).1,
        { Copy.follow lines c with block := (t.step machine (Copy.follow lines c).block).2 })) t cs
    let passed := pass (Tool.step machine) t (cs.map fun c => (c.follow lines).block)
    placed.1 = passed.1 ∧ placed.2.map (·.block) = passed.2 := by
  induction cs generalizing t with
  | nil => exact ⟨rfl, rfl⟩
  | cons c cs ih =>
      obtain ⟨htool, hblocks⟩ := ih (t.step machine (c.follow lines).block).1
      simp only [pass_cons, List.map_cons]
      exact ⟨htool, congrArg _ hblocks⟩

theorem pass_entries (machine : Machine α) (lines : Array (Block α)) (t : Tool α) (es : List (Entry α)) :
    let placed := pass (Entry.place machine lines) t es
    let passed := pass (Tool.step machine) t
      (es.flatMap fun e => e.line :: e.copies.map fun c => (c.follow lines).block)
    placed.1 = passed.1 ∧ placed.2.flatMap Entry.executed = passed.2 := by
  induction es generalizing t with
  | nil => exact ⟨rfl, rfl⟩
  | cons e es ih =>
      obtain ⟨htool, hblocks⟩ := pass_copies machine lines (t.step machine e.line).1 e.copies
      have hentry : (Entry.place machine lines t e).1 = (pass (Tool.step machine) t
          (e.line :: e.copies.map fun c => (c.follow lines).block)).1 ∧
          (Entry.place machine lines t e).2.executed = (pass (Tool.step machine) t
            (e.line :: e.copies.map fun c => (c.follow lines).block)).2 := by
        rw [pass_cons]
        exact ⟨htool, congrArg _ hblocks⟩
      obtain ⟨htail, hrest⟩ := ih (Entry.place machine lines t e).1
      rw [hentry.1] at htail hrest
      rw [pass_cons, List.flatMap_cons, pass_append, hentry.1]
      refine ⟨htail, ?_⟩
      rw [List.flatMap_cons, hentry.2, hrest]

/-- Placing moves the tool through what runs. -/
theorem executed_place_eq (p : Program α) (machine : Machine α) :
    (p.place machine).executed = (pass (Tool.step machine) (.atStart machine) p.running).2 :=
  (pass_entries machine p.lines.toArray (.atStart machine) p.entries).2

/-- A program that has been read and placed takes the tool through its blocks again in the same way. -/
theorem pass_executed_ofLines (lines : List String) (settings : Settings α) (machine : Machine α) :
    let p := ofLines lines settings machine
    (pass (Tool.step machine) (.atStart machine) p.executed).2 = p.executed := by
  intro p
  have hexecuted : p.executed =
      (pass (Tool.step machine) (.atStart machine) (asRead lines settings).executed).2 := by
    have hplaced := executed_place_eq (asRead lines settings) machine
    rwa [running_of_unmodified (modified_asRead lines settings)] at hplaced
  rw [hexecuted, Tool.pass_step_placed]

/-- Everything that runs has been placed by a step. -/
theorem exists_step_of_mem_executed {lines : List String} {settings : Settings α} {machine : Machine α}
    {b : Block α} (h : b ∈ (ofLines lines settings machine).executed) :
    ∃ t b₀, b = (Tool.step machine t b₀).2 := by
  rw [← pass_executed_ofLines lines settings machine] at h
  obtain ⟨t, b₀, -, rfl⟩ := exists_of_mem_pass h
  exact ⟨t, b₀, rfl⟩

/-- A block that has been placed has an arc if its motion is one and it has an offset. -/
theorem isSome_arc_of_mem_executed {lines : List String} {settings : Settings α} {machine : Machine α}
    {b : Block α} (h : b ∈ (ofLines lines settings machine).executed) :
    b.place.arc.isSome = (b.motion.isArc && (b.i.isSome || b.j.isSome)) := by
  obtain ⟨t, b₀, rfl⟩ := exists_step_of_mem_executed h
  have hwords := (Tool.unplaced_step machine t b₀).symm
  have hmotion : (t.step machine b₀).2.motion = b₀.motion := (congrArg Block.motion hwords).symm
  have hi : (t.step machine b₀).2.i = b₀.i := (congrArg Block.i hwords).symm
  have hj : (t.step machine b₀).2.j = b₀.j := (congrArg Block.j hwords).symm
  rw [Tool.step_arc, hmotion, hi, hj, Block.isSome_arcBetween]

/-! ### Copies and their lines -/

/-- The copies at a line of the program have been read along a route. -/
theorem exists_copies_readLine (s : Source) (r : ProgramReader α) (l : ℕ × String) :
    ∃ m reader route, s.Copies m reader (r.readLine s l).2.copies route := by
  simp only [ProgramReader.readLine]
  split
  · split
    · exact ⟨_, _, _, .nil ⟨(Block.read l.1 l.2 r.reader.modal).1, r.reader.found⟩⟩
    · exact ⟨_, _, _, s.copies_inline _ _ l.1 _ ⟨(Block.read l.1 l.2 r.reader.modal).1, r.reader.found⟩⟩
  · exact ⟨_, _, _, .nil ⟨(Block.read l.1 l.2 r.reader.modal).1, r.reader.found⟩⟩

/-- A copy has been read from the line that it is a copy of, and it runs before the end of the program. -/
theorem exists_read_of_mem_copies {lines : List String} {settings : Settings α} {machine : Machine α}
    {e : Entry α} (he : e ∈ (ofLines lines settings machine).entries) {c : Copy α} (hc : c ∈ e.copies) :
    c.block.afterEnd = false ∧
      ∃ m, c.block.asRead = (Block.read c.definition (lines.getD c.definition "") m).2 := by
  set s := Source.ofLines α lines settings.calls settings.markers with hs
  have hmem : e.unplaced ∈ (asRead lines settings).entries.map Entry.unplaced :=
    entries_place (modified_asRead lines settings) machine ▸ List.mem_map_of_mem he
  obtain ⟨e₀, he₀, heq⟩ := List.mem_map.mp hmem
  obtain ⟨r, l, -, rfl⟩ := exists_of_mem_pass he₀
  have hcopies : (⟨c.definition, c.block.unplaced⟩ : Copy α) ∈ (r.readLine s l).2.unplaced.copies := by
    rw [heq]
    exact List.mem_map.mpr ⟨c, hc, rfl⟩
  obtain ⟨c₀, hc₀, hcopy⟩ := List.mem_map.mp hcopies
  have hdefinition := congrArg Copy.definition hcopy
  have hblock := congrArg (fun c : Copy α => c.block) hcopy
  change c₀.definition = c.definition at hdefinition
  change c₀.block.unplaced = c.block.unplaced at hblock
  have hasRead : c₀.block.unplaced.asRead = c.block.unplaced.asRead := congrArg Block.asRead hblock
  have hafterEnd : c₀.block.unplaced.afterEnd = c.block.unplaced.afterEnd := congrArg Block.afterEnd hblock
  obtain ⟨m, reader, route, hroute⟩ := exists_copies_readLine s r l
  refine ⟨hafterEnd.symm.trans (hroute.afterEnd c₀ hc₀), ?_⟩
  have hread : c₀.block.asRead ∈ (pass s.readAt m route.2).2 := by
    rw [hroute.read]
    exact List.mem_map.mpr ⟨c₀, hc₀, rfl⟩
  obtain ⟨m', k, -, hread⟩ := exists_of_mem_pass hread
  obtain rfl : k = c.definition := by
    have hnumber := congrArg Block.number hread
    rw [Source.readAt, Block.read_snd] at hnumber
    exact hnumber.trans ((hroute.copied c₀ hc₀).2.trans hdefinition)
  refine ⟨m', hasRead.symm.trans ?_⟩
  change c₀.block.asRead = _
  simpa [Source.readAt, hs, Source.ofLines] using hread.symm

/-- A copy has the number of the line that it is a copy of. -/
theorem number_of_mem_copies {lines : List String} {settings : Settings α} {machine : Machine α} {e : Entry α}
    (he : e ∈ (ofLines lines settings machine).entries) {c : Copy α} (hc : c ∈ e.copies) :
    c.block.number = c.definition := by
  obtain ⟨-, m, hread⟩ := exists_read_of_mem_copies he hc
  have hnumber := congrArg Block.number hread
  rwa [Block.read_snd] at hnumber

/-- The words of a copy are those of its line, and they are the only words on it. -/
theorem words_of_mem_copies {lines : List String} {settings : Settings α} {machine : Machine α} {e : Entry α}
    (he : e ∈ (ofLines lines settings machine).entries) {c : Copy α} (hc : c ∈ e.copies) :
    c.block.FromText ∧ c.block.modified = false ∧ c.block.text = lines.getD c.definition "" := by
  obtain ⟨-, m, hread⟩ := exists_read_of_mem_copies he hc
  exact Block.of_asRead_eq hread

/-- Lines are numbered from zero. -/
theorem number_of_mem_lines {lines : List String} {settings : Settings α} {machine : Machine α} {n : ℕ}
    {b : Block α} (hb : (ofLines lines settings machine).lines[n]? = some b) : b.number = n := by
  have hline : ∀ (source : Source) (r : ProgramReader α) (l : ℕ × String),
      (r.readLine source l).2.line.number = l.1 := by
    intro source r l
    simp only [ProgramReader.readLine, Block.read_snd, Block.inert]
  have hnumbers : (asRead lines settings).lines.map (·.number) = List.range lines.length := by
    rw [Program.lines, List.map_map]
    refine (map_pass (hline _) _ _).trans ?_
    simp [List.mapIdx_eq_zipIdx_map, Function.comp_def, List.range_eq_range']
  have hplaced := congrArg (List.map Block.number) ((asRead lines settings).lines_place machine)
  rw [List.map_map, List.map_map] at hplaced
  have hnumber : ((ofLines lines settings machine).lines.map (·.number))[n]? = some b.number := by
    rw [List.getElem?_map, hb]
    rfl
  have hrange : (ofLines lines settings machine).lines.map (·.number) = List.range lines.length :=
    hplaced.trans hnumbers
  rw [hrange] at hnumber
  obtain ⟨_, hget⟩ := List.getElem?_eq_some_iff.mp hnumber
  rw [← hget, List.getElem_range]

/-- Everything that runs is a line of the program or a copy of one. -/
theorem line_or_copy_of_mem_executed {lines : List String} {settings : Settings α} {machine : Machine α}
    {b : Block α} (hb : b ∈ (ofLines lines settings machine).executed) :
    b.FromText ∧ b.modified = false ∧ b.text = lines.getD b.number "" ∧
      ((ofLines lines settings machine).lines[b.number]? = some b ∨
        ∃ e ∈ (ofLines lines settings machine).entries,
          ∃ c ∈ e.copies, c.block = b ∧ c.definition = b.number) := by
  obtain ⟨e, he, hmem⟩ := List.mem_flatMap.mp hb
  rcases List.mem_cons.mp hmem with rfl | hmem
  · obtain ⟨n, hn, hget⟩ := List.mem_iff_getElem.mp (List.mem_map_of_mem (f := Entry.line) he)
    have hline : (ofLines lines settings machine).lines[n]? = some e.line := by
      rw [← hget]
      exact List.getElem?_eq_getElem hn
    have hnumber := number_of_mem_lines hline
    obtain ⟨k, m, hread⟩ := exists_read_of_mem_lines (List.mem_of_getElem? hline)
    obtain ⟨hfrom, hmodified, -⟩ := Block.of_asRead_eq hread
    have htext : lines[n]? = some e.line.text := by
      rw [← texts_ofLines lines settings machine, List.getElem?_map, hline]
      rfl
    rw [hnumber]
    exact ⟨hfrom, hmodified, by rw [List.getD_eq_getElem?_getD, htext, Option.getD_some], .inl hline⟩
  · obtain ⟨c, hc, rfl⟩ := List.mem_map.mp hmem
    obtain ⟨hfrom, hmodified, htext⟩ := words_of_mem_copies he hc
    rw [number_of_mem_copies he hc]
    exact ⟨hfrom, hmodified, htext, .inr ⟨e, he, c, hc, rfl, rfl⟩⟩

/-- Every block that runs has its words from a line of the program. -/
theorem exists_line_of_mem_executed {lines : List String} {settings : Settings α} {machine : Machine α}
    {b : Block α} (hb : b ∈ (ofLines lines settings machine).executed) :
    b.FromText ∧ b.modified = false ∧
      (b.text = "" ∨ ∃ line ∈ (ofLines lines settings machine).lines, line.text = b.text) := by
  obtain ⟨hfrom, hmodified, htext, -⟩ := line_or_copy_of_mem_executed hb
  refine ⟨hfrom, hmodified, ?_⟩
  rw [List.getD_eq_getElem?_getD] at htext
  cases hline : lines[b.number]? with
  | none =>
      rw [hline] at htext
      exact .inl htext
  | some line =>
      rw [hline] at htext
      have hmem : b.text ∈ (ofLines lines settings machine).lines.map (·.text) := by
        rw [texts_ofLines, htext]
        exact List.mem_of_getElem? hline
      exact .inr (List.mem_map.mp hmem)

/-- Where no line leaves the work coordinates, no copy does. -/
theorem machineFrame_executed {lines : List String} {settings : Settings α} {machine : Machine α}
    (h : ∀ b ∈ (ofLines lines settings machine).lines, b.isEditable = true) :
    ∀ b ∈ (ofLines lines settings machine).executed, b.machineFrame = false := by
  intro b hb
  obtain ⟨hfrom, -, htext | ⟨line, hline, htext⟩⟩ := exists_line_of_mem_executed hb
  · rw [hfrom.machineFrame, htext, lineWords, wordsOf_empty]
    rfl
  · rw [hfrom.machineFrame, ← htext, ← (fromText_ofLines lines settings machine line hline).machineFrame]
    have heditable := h line hline
    simp only [Block.isEditable, Bool.not_eq_true', Bool.or_eq_false_iff] at heditable
    exact heditable.1.1

end Program

end PartProgram
