import PartProgram.Proofs.Edit.Lines
import PartProgram.Proofs.Plane.Map
import PartProgram.Proofs.Program.Running

/-! # Lines changed one by one

An edit changes lines where they are written. When the program is placed again, every copy takes over
what its line has become, and what runs is what ran before with these changes.
-/

namespace PartProgram

variable {α : Type}

namespace Block

/-- The second block is the first one edited in place: it keeps its place, and an arc stays an arc. -/
structure RewordOf (b b' : Block α) : Prop where
  edit : EditOf b b'
  place : b'.place = b.place
  motion : b'.motion = b.motion ∨ b.motion.isArc = true ∧ b'.motion.isArc = true

/-- What becomes of a copy when its line has become `line`. -/
def following (b line : Block α) : Block α :=
  if line.modified then
    { b with
      axes := line.axes
      i := line.i
      j := line.j
      motion := if line.motion.isArc && b.motion.isArc then line.motion else b.motion
      modified := true }
  else b

/-- A line follows itself. -/
theorem RewordOf.following_eq {b b' : Block α} (h : RewordOf b b') : b.following b' = b' := by
  rw [following]
  split
  · rename_i hmodified
    have hmotion : (if b'.motion.isArc && b.motion.isArc then b'.motion else b.motion) = b'.motion := by
      rcases h.motion with hsame | ⟨harc, harc'⟩
      · rw [hsame, ite_self]
      · rw [harc, harc', Bool.and_self, if_pos rfl]
    rw [hmotion, h.edit.kept, hmodified, h.place]
  · rename_i hmodified
    have hmodified : b'.modified = false := by simpa using hmodified
    obtain ⟨hm, hmotion, haxes, hi, hj⟩ := h.edit.same hmodified
    rw [h.edit.kept, hmotion, haxes, hi, hj, h.place, hmodified, ← hm]

theorem editOf_following (b line : Block α) : EditOf b (b.following line) := by
  rw [following]
  split
  · exact .of_modified rfl rfl
  · exact .refl b

theorem motion_following (b line : Block α) : (b.following line).motion =
    if line.modified && (line.motion.isArc && b.motion.isArc) then line.motion else b.motion := by
  rw [following]
  cases line.modified <;> simp

theorem isArc_following (b line : Block α) : (b.following line).motion.isArc = b.motion.isArc := by
  rw [following]
  split
  · change (if line.motion.isArc && b.motion.isArc then line.motion else b.motion).isArc = _
    cases hline : line.motion.isArc <;> cases hb : b.motion.isArc <;> simp [hline, hb]
  · rfl

theorem isEngaged_following (b line : Block α) : (b.following line).motion.isEngaged = b.motion.isEngaged := by
  rw [following]
  split
  · change (if line.motion.isArc && b.motion.isArc then line.motion else b.motion).isEngaged = _
    cases hline : line.motion <;> cases hb : b.motion <;> simp [Motion.isArc, Motion.winding?, Motion.isEngaged]
  · rfl

/-- The coordinate words of the block are those of its line. Without a line there are none. -/
structure Repeats (b : Block α) (line? : Option (Block α)) : Prop where
  axes : b.axes = line?.elim .none (·.axes)
  i : b.i = line?.bind (·.i)
  j : b.j = line?.bind (·.j)

theorem Repeats.mirrorOffset {b line : Block α} (h : b.Repeats (some line)) (m : MirrorAxis) :
    b.mirrorOffset m = line.mirrorOffset m := by
  cases m with
  | x => exact h.i
  | y => exact h.j

/-- A block that repeats its line goes on to do so. -/
theorem Repeats.following {b line line' : Block α} (h : b.Repeats (some line)) (hline : EditOf line line') :
    (b.following line').Repeats (some line') := by
  rw [Block.following]
  split
  · exact ⟨rfl, rfl, rfl⟩
  · rename_i hmodified
    obtain ⟨-, -, haxes, hi, hj⟩ := hline.same (by simpa using hmodified)
    exact ⟨h.axes.trans haxes.symm, h.i.trans hi.symm, h.j.trans hj.symm⟩

end Block

/-- A copy follows its line as a block does. -/
theorem Copy.follow_eq (lines : Array (Block α)) (c : Copy α) :
    c.follow lines = { c with block := lines[c.definition]?.elim c.block c.block.following } := by
  rw [follow]
  cases lines[c.definition]? with
  | none => rfl
  | some line =>
      simp only [Option.elim_some, Block.following]
      split <;> rfl

variable [Scalar α]

/-- The program has been placed on the machine with all of its lines open to edits, in work coordinates, and
the copies repeat their lines. -/
structure Program.Settled (p : Program α) (machine : Machine α) : Prop where
  numbered : ∀ (n : ℕ) line, p.lines[n]? = some line → line.number = n
  copied : ∀ e ∈ p.entries, ∀ c ∈ e.copies, c.block.number = c.definition
  repeats : ∀ b ∈ p.executed, b.Repeats p.lines[b.number]?
  editable : ∀ b ∈ p.lines, b.isEditable = true
  inWork : ∀ b ∈ p.executed, b.machineFrame = false
  placed : (pass (Tool.step machine) (.atStart machine) p.executed).2 = p.executed
  extent : (pass (Tool.step machine) (.atStart machine) p.executed).1.extent = p.extent

namespace Program

variable {lines : List String} {settings : Settings α} {machine : Machine α} {p : Program α}

theorem extent_place_eq (p : Program α) (machine : Machine α) :
    (p.place machine).extent = (pass (Tool.step machine) (.atStart machine) p.running).1.extent :=
  congrArg Tool.extent (pass_entries machine p.lines.toArray (.atStart machine) p.entries).1

theorem coordinates_place_eq (p : Program α) (machine : Machine α) :
    (p.place machine).coordinates =
      (pass (Tool.step machine) (.atStart machine) p.running).1.coordinates.toList :=
  congrArg (fun t : Tool α => t.coordinates.toList)
    (pass_entries machine p.lines.toArray (.atStart machine) p.entries).1

theorem figures_place_eq (p : Program α) (machine : Machine α) :
    (p.place machine).figures = (pass (Tool.step machine) (.atStart machine) p.running).1.figures :=
  congrArg Tool.figures (pass_entries machine p.lines.toArray (.atStart machine) p.entries).1

/-- A program that has been read is settled. -/
theorem settled_ofLines (heditable : ∀ b ∈ (ofLines lines settings machine).lines, b.isEditable = true) :
    (ofLines lines settings machine).Settled machine where
  numbered n line h := number_of_mem_lines h
  copied _ he _ hc := number_of_mem_copies he hc
  repeats b hb := by
    obtain ⟨hfrom, hmodified, htext, -⟩ := line_or_copy_of_mem_executed hb
    obtain ⟨haxes, hi, hj⟩ := hfrom.unmodified hmodified
    have htexts := congrArg (·[b.number]?) (texts_ofLines lines settings machine)
    simp only [List.getElem?_map] at htexts
    rw [List.getD_eq_getElem?_getD, ← htexts] at htext
    cases hline : (ofLines lines settings machine).lines[b.number]? with
    | none =>
        rw [hline] at htext
        rw [show b.text = "" from htext, lineWords, wordsOf_empty] at haxes hi hj
        exact ⟨haxes, hi, hj⟩
    | some line =>
        rw [hline] at htext
        have hmem : line ∈ (ofLines lines settings machine).lines := List.mem_of_getElem? hline
        obtain ⟨haxes', hi', hj'⟩ := (fromText_ofLines lines settings machine line hmem).unmodified
          (modified_place (modified_asRead lines settings) machine line hmem)
        rw [show b.text = line.text from htext] at haxes hi hj
        exact ⟨haxes.trans haxes'.symm, hi.trans hi'.symm, hj.trans hj'.symm⟩
  editable := heditable
  inWork := machineFrame_executed heditable
  placed := pass_executed_ofLines lines settings machine
  extent := by
    rw [ofLines_eq, executed_place_eq, Tool.pass_step_placed, extent_place_eq]

/-- What runs is a line under its own number, or a copy under the number of the line that it repeats. -/
theorem Settled.line_or_copy (h : p.Settled machine) {b : Block α} (hb : b ∈ p.executed) :
    p.lines[b.number]? = some b ∨ ∃ e ∈ p.entries, ∃ c ∈ e.copies, c.block = b ∧ b.number = c.definition := by
  obtain ⟨e, he, hmem⟩ := List.mem_flatMap.mp hb
  rcases List.mem_cons.mp hmem with rfl | hmem
  · obtain ⟨n, hn⟩ := List.mem_iff_getElem?.mp (List.mem_map_of_mem (f := Entry.line) he)
    exact .inl (h.numbered n _ hn ▸ hn)
  · obtain ⟨c, hc, rfl⟩ := List.mem_map.mp hmem
    exact .inr ⟨e, he, c, hc, rfl, h.copied e he c hc⟩

/-- Every step goes from where it starts to where its words take it. -/
theorem Settled.target_eq (h : p.Settled machine) {b : Block α} (hb : b ∈ p.executed) :
    b.place.target = b.targetFrom machine b.place.origin := by
  rw [← h.placed] at hb
  obtain ⟨t, b₀, -, rfl⟩ := exists_of_mem_pass hb
  rw [Tool.targetFrom_step, Tool.step_origin, Tool.step_target]

/-- A word says where the step ends, or how far it goes. -/
theorem Settled.along_target_of_word (h : p.Settled machine) {b : Block α} (hb : b ∈ p.executed) (m : MirrorAxis)
    {v : α} (hword : b.axes.get m.axis = some v) :
    m.along b.place.target.xy = if b.absolute then v else m.along b.place.origin.xy + v := by
  have haxis : ∀ previous offset : α, b.axisTarget m.axis previous offset = if b.absolute then v else previous + v := by
    intro previous offset
    simp [Block.axisTarget, hword, h.inWork b hb]
  rw [h.target_eq hb]
  cases m with
  | x => exact haxis _ _
  | y => exact haxis _ _

theorem Settled.along_target_eq (h : p.Settled machine) {b : Block α} (hb : b ∈ p.executed) (m : MirrorAxis)
    (habsolute : b.absolute = true) {v : α} (hword : b.axes.get m.axis = some v) :
    m.along b.place.target.xy = v := by
  rw [h.along_target_of_word hb m hword, if_pos habsolute]

/-- Every step runs its arc from where it starts to where it ends. -/
theorem Settled.arc_eq (h : p.Settled machine) {b : Block α} (hb : b ∈ p.executed) :
    b.place.arc = b.arcBetween b.place.origin.xy b.place.target.xy := by
  rw [← h.placed] at hb
  obtain ⟨t, b₀, -, rfl⟩ := exists_of_mem_pass hb
  rw [Tool.arcBetween_step, Tool.step_arc, Tool.step_origin, Tool.step_target]

/-! ### What runs after an edit -/

/-- What becomes of a block when `f` changes the lines of its program. -/
def revised (p : Program α) (f : Block α → Block α) (b : Block α) : Block α :=
  p.lines[b.number]?.elim b fun line => b.following (f line)

omit [Scalar α] in
theorem lines_mapLines (p : Program α) (f : Block α → Block α) : (p.mapLines f).lines = p.lines.map f := by
  simp [mapLines, Program.lines, Function.comp_def]

omit [Scalar α] in
/-- Where all lines may be edited, all lines are. -/
theorem editLines_eq_mapLines (h : ∀ b ∈ p.lines, b.isEditable = true) (f : Block α → Block α) :
    p.editLines f = p.mapLines f := by
  simp only [editLines, mapLines]
  congr 1
  apply List.map_congr_left
  intro e he
  rw [if_pos (h e.line (List.mem_map_of_mem he))]

/-- Lines and copies alike follow the lines as they have been changed. -/
theorem Settled.running_mapLines (h : p.Settled machine) {f : Block α → Block α}
    (hf : ∀ line ∈ p.lines, line.RewordOf (f line)) : (p.mapLines f).running = p.executed.map (p.revised f) := by
  have hline : ∀ e ∈ p.entries, f e.line = p.revised f e.line := by
    intro e he
    have hmem : e.line ∈ p.lines := List.mem_map_of_mem he
    obtain ⟨n, hn⟩ := List.mem_iff_getElem?.mp hmem
    rw [revised, h.numbered n _ hn, hn, Option.elim_some, (hf _ hmem).following_eq]
  have hcopy : ∀ e ∈ p.entries, ∀ c ∈ e.copies,
      (c.follow (p.mapLines f).lines.toArray).block = p.revised f c.block := by
    intro e he c hc
    rw [Copy.follow_eq, lines_mapLines, List.getElem?_toArray, List.getElem?_map, revised, h.copied e he c hc]
    cases p.lines[c.definition]? <;> rfl
  rw [running, executed, List.map_flatMap]
  simp only [mapLines, List.flatMap_map]
  apply List.flatMap_congr
  intro e he
  rw [Entry.executed, List.map_cons, List.map_map, hline e he]
  exact congrArg _ (List.map_congr_left (hcopy e he))

/-- Steps that follow their lines are placed anew. -/
theorem forall₂_pass_revised (p : Program α) (f : Block α → Block α) (machine : Machine α) (t : Tool α) :
    List.Forall₂ (fun b b' => b' = { p.revised f b with place := b'.place }) p.executed
      (pass (Tool.step machine) t (p.executed.map (p.revised f))).2 := by
  have hsame : List.Forall₂ (fun b b' => b' = p.revised f b) p.executed (p.executed.map (p.revised f)) := by
    rw [List.forall₂_map_right_iff, List.forall₂_same]
    exact fun _ _ => rfl
  refine forall₂_pass_of_forall₂ ?_ _ hsame
  rintro t b b' rfl
  exact t.eq_of_step machine _

/-- The lines of the changed program are the changed lines. -/
theorem forall₂_lines_place (p : Program α) (f : Block α → Block α) (machine : Machine α) :
    List.Forall₂ (fun line line' => line' = { f line with place := line'.place }) p.lines
      ((p.mapLines f).place machine).lines := by
  have hplaced : List.Forall₂ (fun b b' => b' = { b with place := b'.place }) (p.mapLines f).lines
      ((p.mapLines f).place machine).lines := by
    apply forall₂_lines
    apply forall₂_pass
    intro t e
    exact t.eq_of_step machine e.line
  rwa [lines_mapLines, List.forall₂_map_left_iff] at hplaced

theorem exists_of_getElem?_lines_place {f : Block α → Block α} {n : ℕ} {line' : Block α}
    (h : ((p.mapLines f).place machine).lines[n]? = some line') :
    ∃ line, p.lines[n]? = some line ∧ line' = { f line with place := line'.place } :=
  exists_getElem?_of_forall₂ (p.forall₂_lines_place f machine).flip h

/-- Placing makes every copy one that follows its line. -/
theorem exists_of_mem_copies_place {e' : Entry α} (he' : e' ∈ (p.place machine).entries) {c' : Copy α}
    (hc' : c' ∈ e'.copies) :
    ∃ e ∈ p.entries, ∃ c ∈ e.copies, c'.definition = c.definition ∧ Block.EditOf c.block c'.block := by
  obtain ⟨t, e, he, rfl⟩ := exists_of_mem_pass he'
  obtain ⟨t', c, hc, rfl⟩ := exists_of_mem_pass hc'
  refine ⟨e, he, c, hc, by rw [Copy.follow_eq], ?_⟩
  have hfollow : Block.EditOf c.block (c.follow p.lines.toArray).block := by
    rw [Copy.follow_eq]
    cases p.lines.toArray[c.definition]? with
    | none => exact .refl c.block
    | some line => exact Block.editOf_following _ line
  exact hfollow.trans (Block.editOf_step machine t' _)

omit [Scalar α] in
theorem editOf_revised (f : Block α → Block α) (b : Block α) : Block.EditOf b (p.revised f b) := by
  rw [revised]
  cases p.lines[b.number]? with
  | none => exact .refl b
  | some line => exact b.editOf_following (f line)

omit [Scalar α] in
theorem editOf_of_revised {f : Block α → Block α} {b b' : Block α}
    (h : b' = { p.revised f b with place := b'.place }) : Block.EditOf b b' := by
  rw [h]
  exact (editOf_revised f b).trans (Block.editOf_place _ _)

/-- The words of a step that has followed its line. -/
theorem Settled.repeats_revised (h : p.Settled machine) {f : Block α → Block α}
    (hf : ∀ line ∈ p.lines, line.RewordOf (f line)) {b : Block α} (hb : b ∈ p.executed) :
    (p.revised f b).Repeats (p.lines[b.number]?.map f) := by
  have hrepeats := h.repeats b hb
  rw [revised]
  cases hline : p.lines[b.number]? with
  | none =>
      rw [hline] at hrepeats
      exact hrepeats
  | some line =>
      rw [hline] at hrepeats
      exact hrepeats.following (hf line (List.mem_of_getElem? hline)).edit

/-- The block runs an arc in the sense in which its line has been read, if the line is one that changes. -/
def KeepsSense (p : Program α) (changes : Block α → Bool) (b : Block α) : Prop :=
  ∀ line ∈ p.lines[b.number]?, changes line = true → line.motion.isArc = true → b.motion.isArc = true →
    line.motion = b.motion

omit [Scalar α] in
/-- An edit that turns no arc around keeps the motion of the steps that run as their lines, and takes the
others over. -/
theorem motion_revised_iff {f : Block α → Block α} {changes : Block α → Bool} {b : Block α}
    (hmotion : ∀ line ∈ p.lines, (f line).motion = line.motion)
    (hmodified : ∀ line ∈ p.lines, (f line).modified = changes line) :
    (p.revised f b).motion = b.motion ↔ p.KeepsSense changes b := by
  rw [revised, KeepsSense]
  cases hline : p.lines[b.number]? with
  | none => simp
  | some line =>
      have hmem := List.mem_of_getElem? hline
      simp only [Option.elim_some, Option.mem_some_iff, forall_eq', Block.following, hmodified line hmem,
        hmotion line hmem]
      cases changes line <;> cases line.motion.isArc <;> cases b.motion.isArc <;> simp

/-- The line that a step has its words from. A step without a line has its own words. -/
def HasWordsOf (p : Program α) (b line : Block α) : Prop :=
  p.lines[b.number]? = some line ∨ p.lines[b.number]? = none ∧ line = b

/-- A step and what becomes of it have the words of a line and of what becomes of that. An edit that writes
nothing on a blank line finds such a line even for a step without one. -/
theorem Settled.exists_repeats (h : p.Settled machine) {f : Block α → Block α}
    (hf : ∀ line ∈ p.lines, line.RewordOf (f line)) (hblank : ∀ b : Block α, b.Repeats none → (f b).Repeats none)
    {b : Block α} (hb : b ∈ p.executed) :
    ∃ line, p.HasWordsOf b line ∧ b.Repeats (some line) ∧ (p.revised f b).Repeats (some (f line)) := by
  have hrepeats := h.repeats b hb
  have hrevised := h.repeats_revised hf hb
  cases hline : p.lines[b.number]? with
  | some line =>
      rw [hline] at hrepeats hrevised
      exact ⟨line, .inl hline, hrepeats, hrevised⟩
  | none =>
      rw [hline] at hrepeats hrevised
      obtain ⟨haxes, hi, hj⟩ := hblank b hrepeats
      exact ⟨b, .inr ⟨hline, rfl⟩, ⟨rfl, rfl, rfl⟩,
        ⟨hrevised.axes.trans haxes.symm, hrevised.i.trans hi.symm, hrevised.j.trans hj.symm⟩⟩

/-- The changed program is settled again. -/
theorem Settled.place_mapLines (h : p.Settled machine) {f : Block α → Block α}
    (hf : ∀ line ∈ p.lines, line.RewordOf (f line)) : ((p.mapLines f).place machine).Settled machine := by
  have hstep : ∀ b' ∈ ((p.mapLines f).place machine).executed,
      ∃ b ∈ p.executed, b' = { p.revised f b with place := b'.place } := by
    rw [executed_place_eq, h.running_mapLines hf]
    exact forall_mem_of_forall₂ (P := (· ∈ p.executed)) (fun b b' heq hb => ⟨b, hb, heq⟩)
      (p.forall₂_pass_revised f machine _) fun b hb => hb
  refine ⟨?_, ?_, ?_, ?_, ?_, ?_, ?_⟩
  · intro n line' hline'
    obtain ⟨line, hline, heq⟩ := exists_of_getElem?_lines_place hline'
    rw [heq]
    exact (hf line (List.mem_of_getElem? hline)).edit.number.trans (h.numbered n line hline)
  · intro e' he' c' hc'
    obtain ⟨e, he, c, hc, hdefinition, hedit⟩ := exists_of_mem_copies_place he' hc'
    obtain ⟨e₀, he₀, rfl⟩ := List.mem_map.mp he
    rw [hdefinition, hedit.number]
    exact h.copied e₀ he₀ c hc
  · intro b' hb'
    obtain ⟨b, hb, heq⟩ := hstep b' hb'
    have hrevised := h.repeats_revised hf hb
    have hnumber : b'.number = b.number := by
      rw [heq]
      exact (editOf_revised f b).number
    rw [hnumber, heq]
    cases hline' : ((p.mapLines f).place machine).lines[b.number]? with
    | none =>
        have hnone : p.lines[b.number]? = none := by
          simpa [Program.lines, place, mapLines] using hline'
        rw [hnone] at hrevised
        exact ⟨hrevised.axes, hrevised.i, hrevised.j⟩
    | some line' =>
        obtain ⟨line, hline, heq'⟩ := exists_of_getElem?_lines_place hline'
        rw [hline] at hrevised
        rw [heq']
        exact ⟨hrevised.axes, hrevised.i, hrevised.j⟩
  · intro line' hline'
    obtain ⟨n, hn⟩ := List.mem_iff_getElem?.mp hline'
    obtain ⟨line, hline, heq⟩ := exists_of_getElem?_lines_place hn
    have hmem := List.mem_of_getElem? hline
    rw [heq]
    exact (hf line hmem).edit.isEditable.trans (h.editable line hmem)
  · intro b' hb'
    obtain ⟨b, hb, heq⟩ := hstep b' hb'
    rw [heq]
    exact (editOf_revised f b).machineFrame.trans (h.inWork b hb)
  · rw [executed_place_eq, Tool.pass_step_placed]
  · rw [executed_place_eq, Tool.pass_step_placed, extent_place_eq]

/-- The second program is the first one with its lines changed and placed again. -/
structure Reworded (f : Block α → Block α) (machine : Machine α) (p q : Program α) : Prop where
  settled : q.Settled machine
  lines : List.Forall₂ (fun line line' => line' = { f line with place := line'.place }) p.lines q.lines
  executed : q.executed = (pass (Tool.step machine) (.atStart machine) (p.executed.map (p.revised f))).2
  extent : q.extent = (pass (Tool.step machine) (.atStart machine) (p.executed.map (p.revised f))).1.extent

/-- Every step of the second program is a step of the first, changed with its line and placed anew. -/
theorem Reworded.forall₂ {f : Block α → Block α} {q : Program α} (h : Reworded f machine p q) :
    List.Forall₂ (fun b b' => b' = { p.revised f b with place := b'.place }) p.executed q.executed := by
  rw [h.executed]
  exact p.forall₂_pass_revised f machine _

theorem Reworded.getElem?_lines_eq_none {f : Block α → Block α} {q : Program α} (h : Reworded f machine p q) {n : ℕ}
    (hline : p.lines[n]? = none) : q.lines[n]? = none := by
  rw [List.getElem?_eq_none_iff] at hline ⊢
  exact h.lines.length_eq ▸ hline

theorem Reworded.forall₂_getElem? {f : Block α → Block α} {q : Program α} (h : Reworded f machine p q) {n : ℕ}
    {b b' : Block α} (hb : p.executed[n]? = some b) (hb' : q.executed[n]? = some b') :
    b' = { p.revised f b with place := b'.place } := by
  obtain ⟨b₁, hb₁, heq⟩ := exists_getElem?_of_forall₂ h.forall₂ hb
  rw [hb₁] at hb'
  obtain rfl : b₁ = b' := by simpa using hb'
  exact heq

/-- An edit that changes the lines of a settled program. -/
theorem Settled.apply (h : p.Settled machine) {edit : Edit α} (hedit : ∀ surface, edit ≠ .follow surface)
    {f : Block α → Block α} (hchange : edit.change p settings = p.mapLines f)
    (hf : ∀ line ∈ p.lines, line.RewordOf (f line)) : Reworded f machine p (edit.apply p settings machine).1 := by
  by_cases hempty : p.isEmpty = true
  · have hlines : p.lines = [] := by
      rw [Program.lines, List.isEmpty_iff.mp hempty]
      rfl
    have hexecuted : p.executed = [] := by
      rw [Program.executed, List.isEmpty_iff.mp hempty]
      rfl
    rw [Edit.apply_of_isEmpty _ hempty]
    refine ⟨h, by simp [hlines], by simp [hexecuted], ?_⟩
    rw [← h.extent, hexecuted]
    rfl
  · rw [Edit.apply_eq hedit (by simpa using hempty), hchange]
    refine ⟨h.place_mapLines hf, p.forall₂_lines_place f machine, ?_, ?_⟩
    · rw [executed_place_eq, h.running_mapLines hf]
    · rw [extent_place_eq, h.running_mapLines hf]

omit [Scalar α] in
theorem isEngaged_revised (f : Block α → Block α) (b : Block α) :
    (p.revised f b).motion.isEngaged = b.motion.isEngaged := by
  rw [revised]
  cases p.lines[b.number]? with
  | none => rfl
  | some line => exact b.isEngaged_following (f line)

omit [Scalar α] in
theorem isArc_revised (f : Block α → Block α) (b : Block α) : (p.revised f b).motion.isArc = b.motion.isArc := by
  rw [revised]
  cases p.lines[b.number]? with
  | none => rfl
  | some line => exact b.isArc_following (f line)

end Program

end PartProgram
