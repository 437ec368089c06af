import Mathlib.Algebra.Order.Floor.Ring
import PartProgram.Proofs.Edit.PassThrough
import PartProgram.Proofs.Program.Travel

/-! # Rounding on the way

Every number of a changed line is rounded on its own when the line is written. Read again, an absolute
word is off by its own rounding only, while a relative word adds to what the words before it have
gathered.
-/

namespace PartProgram

section

variable {α : Type} [Field α] [LinearOrder α] [FloorRing α]

/-! ### The words that make up a coordinate -/

namespace Block

/-- A number of the block as its line shows it: rounded if the line is written anew. -/
def asWritten (places : ℕ) (b : Block α) (v : α) : α := if b.modified then rounded places v else v

/-- By how much the word for an axis is off on the line that is written for the block. -/
def roundingError (places : ℕ) (axis : Axis) (b : Block α) : α :=
  (b.axes.get axis).elim 0 fun v => b.asWritten places v - v

theorem abs_roundingError_le [IsStrictOrderedRing α] (places : ℕ) (axis : Axis) (b : Block α) :
    |b.roundingError places axis| ≤ 1 / 2 / 10 ^ places := by
  have hzero : |(0 : α)| ≤ 1 / 2 / 10 ^ places := by
    rw [abs_zero]
    positivity
  rw [roundingError]
  cases b.axes.get axis with
  | none => exact hzero
  | some v =>
      rw [Option.elim_some, asWritten]
      split
      · exact abs_rounded_sub_le v
      · rw [sub_self]
        exact hzero

end Block

/-- The lines whose words make up the coordinate on an axis: the last one with an absolute word, and
the ones with relative words after it. -/
def sinceAbsolute (axis : Axis) (bs : List (Block α)) : List (Block α) :=
  bs.foldl (fun since b =>
    if (b.axes.get axis).isNone then since else if b.absolute then [b] else since ++ [b]) []

/-- What the rounding of these words adds up to. -/
def drift (places : ℕ) (axis : Axis) (bs : List (Block α)) : α :=
  ((sinceAbsolute axis bs).map (Block.roundingError places axis)).sum

theorem drift_concat (places : ℕ) (axis : Axis) (bs : List (Block α)) (b : Block α) :
    drift places axis (bs ++ [b]) =
      (if b.absolute ∧ (b.axes.get axis).isSome then 0 else drift places axis bs) +
        b.roundingError places axis := by
  rw [drift, sinceAbsolute, List.foldl_append]
  cases hword : b.axes.get axis with
  | none => simp [hword, drift, sinceAbsolute, Block.roundingError]
  | some v => cases habsolute : b.absolute <;> simp [hword, habsolute, drift, sinceAbsolute]

variable [IsStrictOrderedRing α]

/-- Every word adds at most half a unit of the last place. -/
theorem abs_drift_le (places : ℕ) (axis : Axis) (bs : List (Block α)) :
    |drift places axis bs| ≤ (sinceAbsolute axis bs).length * (1 / 2 / 10 ^ places) := by
  rw [drift]
  induction sinceAbsolute axis bs with
  | nil => simp
  | cons b since ih =>
      have hb := b.abs_roundingError_le places axis
      rw [List.map_cons, List.sum_cons, List.length_cons, Nat.cast_succ, add_one_mul, add_comm]
      exact (abs_add_le _ _).trans (add_le_add ih hb)

/-- Up to two words stay within a unit of the last place. -/
theorem abs_drift_le_of_length_le_two {places : ℕ} {axis : Axis} {bs : List (Block α)}
    (h : (sinceAbsolute axis bs).length ≤ 2) : |drift places axis bs| ≤ 1 / 10 ^ places := by
  have hlength : ((sinceAbsolute axis bs).length : α) ≤ 2 := by exact_mod_cast h
  have hhalf : (0 : α) ≤ 1 / 2 / 10 ^ places := by positivity
  calc |drift places axis bs| ≤ (sinceAbsolute axis bs).length * (1 / 2 / 10 ^ places) :=
        abs_drift_le places axis bs
    _ ≤ 2 * (1 / 2 / 10 ^ places) := mul_le_mul_of_nonneg_right hlength hhalf
    _ = 1 / 10 ^ places := by ring

end

variable {α : Type} [Field α] [LinearOrder α] [IsStrictOrderedRing α] [FloorRing α] [PlaneFunctions α]

/-! ### One line -/

namespace Block

/-- The second block has been read from the line that is written for the first one. -/
structure RoundedTo (places : ℕ) (b c : Block α) : Prop where
  absolute : c.absolute = b.absolute
  machineFrame : c.machineFrame = b.machineFrame
  axes : ∀ axis, c.axes.get axis = (b.axes.get axis).map (b.asWritten places)

/-- The words that are read again are those of the block, rounded. -/
theorem FromText.get_axes_reread {b : Block α} (h : b.FromText) (format : NumberFormat) (e : Emitted α)
    (axis : Axis) :
    (lineWords (b.reread format e) : LineWords α).axes.get axis =
      (b.axes.get axis).map (b.asWritten format.decimalPlaces) := by
  rw [lineWords, wordsOf_reread format e h]
  cases hm : b.modified with
  | true =>
      have hwritten : b.asWritten format.decimalPlaces = rounded format.decimalPlaces := by
        funext v
        exact if_pos hm
      rw [if_pos rfl, LineWords.foldl_add, hwritten]
      exact latest_written?_rewritten_eq_rounded format e (.inl ⟨axis, rfl⟩) (filter_numbers_axis e b axis)
  | false =>
      have hwritten : b.asWritten format.decimalPlaces = id := by
        funext v
        exact if_neg (by simp [hm])
      rw [if_neg (by simp), hwritten, Option.map_id, (h.unmodified hm).1]
      rfl

/-- A line of the listing read again, by a reader with the distance mode that its block found. -/
theorem FromText.readLine_reread {b : Block α} (h : b.FromText) (hcall : b.call = none) (format : NumberFormat)
    (e : Emitted α) (source : Source) {r : ProgramReader α}
    (hr : Word.latest (Word.distance? α) r.reader.modal.absolute (wordsOf b.text) = b.absolute) (number : ℕ) :
    ∃ r' b', r.readLine source (number, b.reread format e) = (r', .ofLine b') ∧
      r'.reader.modal.absolute = b.absolute ∧ b.RoundedTo format.decimalPlaces b' := by
  have hcodes := codes_reread format e h
  have haxes := h.get_axes_reread format e
  have hframe := machineFrame_reread format e h
  have hdistance : Word.latest (Word.distance? α) r.reader.modal.absolute (wordsOf (b.reread format e)) =
      b.absolute := by
    rw [wordsOf_reread format e h, ← hr]
    split
    · exact latest_distance?_rewritten format e _
    · rfl
  generalize b.reread format e = line at *
  have hcall : (LineCodes.ofLine α line).call? = none := by rw [hcodes, ← h.call, hcall]
  obtain ⟨r', b', hread⟩ := ProgramReader.exists_readsLine source r (l := (number, line)) hcall
  refine ⟨r', b', hread.eq, ?_, ?_, ?_, ?_⟩
  · exact hread.modal ▸ hdistance
  · exact hread.absolute.trans hdistance
  · exact hread.machineFrame.trans hframe
  · exact fun axis => hread.axes ▸ haxes axis

omit [IsStrictOrderedRing α] in
/-- Where the two blocks lead from different places: an absolute word forgets the difference. -/
theorem RoundedTo.targetFrom_sub {places : ℕ} {b c : Block α} (h : b.RoundedTo places c) (machine : Machine α)
    (p q : Position α) (d : PathAxis) :
    (c.targetFrom machine q).on d - (b.targetFrom machine p).on d =
      (if b.absolute ∧ (b.axes.get d.axis).isSome then 0 else q.on d - p.on d) +
        b.roundingError places d.axis := by
  have haxis : ∀ (b : Block α) (p : Position α),
      (b.targetFrom machine p).on d = b.axisTarget d.axis (p.on d) (machine.workOffset.on d) := by
    intro b p
    cases d <;> rfl
  rw [haxis, haxis, axisTarget, axisTarget, h.axes, h.absolute, h.machineFrame, roundingError]
  cases b.axes.get d.axis with
  | none => simp
  | some v =>
      cases b.absolute with
      | true => cases b.machineFrame <;> simp
      | false =>
          simp only [Option.map_some, Option.elim_some, Bool.false_eq_true, if_false, false_and]
          ring

end Block

/-! ### A whole program -/

/-- The listing of edited lines that follow each other is read again, line by line. -/
theorem Chained.exists_roundedTo {flips : Prop} {bs bs' : List (Block α)} {c : Carried α} (h : Chained flips c bs)
    (hbs : ∀ b ∈ bs, b.FromText ∧ b.call = none) (hedits : List.Forall₂ Block.EditOf bs bs')
    (format : NumberFormat) (e : Emitted α) (source : Source) {r : ProgramReader α}
    (hr : r.reader.modal.absolute = c.absolute) (number : ℕ) :
    ∃ cs, (pass (ProgramReader.readLine source) r
        (((pass (Block.write format) e bs').2.map fun line =>
          String.ofList (Text.dropReturn line.toList)).mapIdx fun n line => (number + n, line))).2 =
        cs.map .ofLine ∧
      List.Forall₂ (Block.RoundedTo format.decimalPlaces) bs' cs := by
  -- Only the distance mode has to be kept in step: speeds and motions do not matter for where words lead.
  induction hedits generalizing c r e number with
  | nil => exact ⟨[], rfl, .nil⟩
  | @cons b b' bs bs' hb _ ih =>
      obtain ⟨hfollows, hchained⟩ := h
      obtain ⟨hfrom, hcall⟩ := hbs b (by simp)
      have hdistance : Word.latest (Word.distance? α) r.reader.modal.absolute (wordsOf b'.text) = b'.absolute := by
        rw [hb.absolute, hb.text, hr, hfollows.absolute]
      obtain ⟨r', b'', hread, hr', hrounded⟩ := (hfrom.edit hb).readLine_reread (hb.call.trans hcall) format e
        source hdistance number
      obtain ⟨cs, hpass, hforall⟩ := ih hchained (fun b hb => hbs b (by simp [hb])) (b'.write format e).1
        (hr'.trans hb.absolute) (number + 1)
      have hshift : ∀ n : ℕ, number + 1 + n = number + (n + 1) := by omega
      refine ⟨b'' :: cs, ?_, .cons hrounded hforall⟩
      rw [Block.reread] at hread
      rw [pass_cons, List.map_cons, List.mapIdx_cons, pass_cons, Nat.add_zero, hread, List.map_cons, ← hpass]
      simp only [hshift]

/-- The text of a program whose lines have been edited is read again, line by line. -/
theorem Program.EditsLines.exists_roundedTo {text : String} {settings : Settings α} {machine : Machine α}
    {q : Program α} (h : (read text settings machine).EditsLines q)
    (hcall : ∀ b ∈ (read text settings machine).lines, b.call = none) :
    ∃ cs, (asRead (Text.lines (q.text settings.format)) settings).entries = cs.map .ofLine ∧
      List.Forall₂ (Block.RoundedTo settings.format.decimalPlaces) q.lines cs := by
  have hunbroken : ∀ b ∈ q.lines, b.Unbroken :=
    forall_mem_of_forall₂ (fun _ _ hb h => h.edit hb) h
      (unbroken_ofLines (fun _ => Text.not_mem_of_mem_lines) settings machine)
  have hlines : Text.lines (q.text settings.format) =
      (pass (Block.write settings.format) Emitted.atStart q.lines).2.map fun line =>
        String.ofList (Text.dropReturn line.toList) := Text.lines_ofLines (Block.Unbroken.not_mem_listing hunbroken _)
  obtain ⟨cs, hcs, hforall⟩ := (chained_ofLines (codes_of_call_eq_none hcall)).exists_roundedTo
    (fun b hb => ⟨fromText_ofLines _ settings machine b hb, hcall b hb⟩) h settings.format Emitted.atStart
    (Source.ofLines α (Text.lines (q.text settings.format)) settings.calls settings.markers)
    (r := ⟨⟨Modal.initial, none⟩, false, false⟩) rfl 0
  refine ⟨cs, ?_, hforall⟩
  simp only [Nat.zero_add] at hcs
  rw [← hcs, asRead, hlines]

omit [IsStrictOrderedRing α] in
/-- The tools that run through blocks and through what is read from their lines drift apart as the
rounding of the words adds up. -/
theorem drift_of_pass_step {places : ℕ} {bs cs : List (Block α)} (h : List.Forall₂ (Block.RoundedTo places) bs cs)
    {machine : Machine α} (hbs : (pass (Tool.step machine) (.atStart machine) bs).2 = bs) {n : ℕ}
    {b c : Block α} (hb : bs[n]? = some b)
    (hc : (pass (Tool.step machine) (.atStart machine) cs).2[n]? = some c) (d : PathAxis) :
    c.place.target.on d - b.place.target.on d = drift places d.axis (bs.take (n + 1)) := by
  -- What the tools are apart by is the drift of the blocks that have run so far.
  have hstep : ∀ (before : List (Block α)) (t t' : Tool α) (b c : Block α),
      t'.position.on d - t.position.on d = drift places d.axis before →
      (t.step machine b).2.RoundedTo places c →
      (t'.step machine c).1.position.on d - (t.step machine b).1.position.on d =
          drift places d.axis (before ++ [(t.step machine b).2]) ∧
        (t'.step machine c).2.place.target.on d - (t.step machine b).2.place.target.on d =
          drift places d.axis (before ++ [(t.step machine b).2]) := by
    intro before t t' b c ht hc
    have hsub := hc.targetFrom_sub machine t.position t'.position d
    rw [Tool.targetFrom_step, ht, ← drift_concat] at hsub
    rw [Tool.step_position, Tool.step_position, Tool.step_target, Tool.step_target]
    exact ⟨hsub, hsub⟩
  have hdrift := getElem?_pass_simulation
    (I := fun before t t' => t'.position.on d - t.position.on d = drift places d.axis before)
    (Q := fun before b c => c.place.target.on d - b.place.target.on d = drift places d.axis (before ++ [b]))
    hstep [] (sub_self _) (hbs.symm ▸ h) (hbs.symm ▸ hb) hc
  rw [List.nil_append, hbs] at hdrift
  rw [hdrift, List.take_add_one, hb, Option.toList_some]

/-- The text that an edit gives for a program without calls has the lines of the edited program, rounded, and
the tool runs through them. -/
theorem Program.exists_roundedTo_apply {text : String} {settings : Settings α} {machine : Machine α} {edit : Edit α}
    (hfollow : ∀ surface, edit ≠ .follow surface) (hoffset : ∀ anchor extra, edit ≠ .offset anchor extra)
    (hcall : ∀ b ∈ (read text settings machine).lines, b.call = none) :
    let edited := edit.apply (read text settings machine) settings machine
    (pass (Tool.step machine) (.atStart machine) edited.1.lines).2 = edited.1.lines ∧
      ∃ cs, (read edited.2 settings machine).lines = (pass (Tool.step machine) (.atStart machine) cs).2 ∧
        List.Forall₂ (Block.RoundedTo settings.format.decimalPlaces) edited.1.lines cs := by
  intro edited
  by_cases hempty : (read text settings machine).isEmpty = true
  · have hlines : (read text settings machine).lines = [] := by simpa [isEmpty, lines] using hempty
    have hnone : Text.lines "" = [] := rfl
    have hagain : (read "" settings machine).lines = [] :=
      List.map_eq_nil_iff.mp ((texts_ofLines (Text.lines "") settings machine).trans hnone)
    simp only [edited, edit.apply_of_isEmpty hempty, hlines, hagain]
    exact ⟨rfl, [], rfl, .nil⟩
  · have hstraight : (read text settings machine).IsStraight :=
      isStraight_ofLines (codes_of_call_eq_none hcall) machine
    have hedits := (editsLines_change hoffset (read text settings machine) settings).trans (editsLines_place _ machine)
    have hplaced := (hstraight.change edit settings).lines_place machine
    simp only [edited, Edit.apply_eq hfollow (by simpa using hempty)]
    generalize (edit.change (read text settings machine) settings).place machine = q at hedits hplaced ⊢
    obtain ⟨cs, hcs, hforall⟩ := hedits.exists_roundedTo hcall
    have hread : read (q.text settings.format) settings machine =
      (asRead (Text.lines (q.text settings.format)) settings).place machine := rfl
    rw [hread]
    generalize asRead (Text.lines (q.text settings.format)) settings = again at hcs ⊢
    obtain ⟨hagain, hlines⟩ := isStraight_of_entries_eq hcs
    refine ⟨?_, cs, by rw [hagain.lines_place, hlines], hforall⟩
    rw [hplaced, Tool.pass_step_placed]

/-- The text that an edit gives for a program without calls, read again line by line: on every axis the
tool is off by what the rounding of the words since the last absolute one adds up to. Each of them adds at
most half a unit of the last place, so two of them leave the tool within a unit. -/
theorem Program.drift_read_apply (text : String) (settings : Settings α) (machine : Machine α) (edit : Edit α)
    (hfollow : ∀ surface, edit ≠ .follow surface) (hoffset : ∀ anchor extra, edit ≠ .offset anchor extra) :
    let p := read text settings machine
    let edited := edit.apply p settings machine
    let r := read edited.2 settings machine
    (∀ b ∈ p.lines, b.call = none) →
      r.lines.length = edited.1.lines.length ∧
      ∀ (n : ℕ) (b c : Block α), edited.1.lines[n]? = some b → r.lines[n]? = some c → ∀ d : PathAxis,
        let places := settings.format.decimalPlaces
        let words := sinceAbsolute d.axis (edited.1.lines.take (n + 1))
        let off := c.place.target.on d - b.place.target.on d
        off = (words.map (Block.roundingError places d.axis)).sum ∧
          |off| ≤ words.length * (1 / 2 / 10 ^ places) ∧
          (words.length ≤ 2 → |off| ≤ 1 / 10 ^ places) := by
  intro p edited r hcall
  obtain ⟨hplaced, cs, hr, hrounded⟩ := exists_roundedTo_apply hfollow hoffset hcall
  refine ⟨by rw [hr, length_pass, hrounded.length_eq], ?_⟩
  intro n b c hb hc d places words off
  have hoff : off = drift places d.axis (edited.1.lines.take (n + 1)) :=
    drift_of_pass_step hrounded hplaced hb (hr ▸ hc) d
  rw [hoff]
  exact ⟨rfl, abs_drift_le places d.axis _, abs_drift_le_of_length_le_two⟩

/-- A program of relative steps on the grid, stretched to about a third. At its third step the tool is off
by more than a unit of the last place. -/
theorem Program.drift_of_three_words :
    let _ := PlaneFunctions.straight
    let settings : Settings ℚ := .default
    let places := settings.format.decimalPlaces
    let p := read "G91\nG1 X1 F100\nX1\nX1\n" settings .default
    let edit : Edit ℚ := .stretch (3334 / 100) 100
    let edited := edit.apply p settings .default
    let r := read edited.2 settings .default
    let words := sinceAbsolute .x (edited.1.lines.take 4)
    ((∀ surface, edit ≠ .follow surface) ∧ (∀ anchor extra, edit ≠ .offset anchor extra) ∧
      ∀ b ∈ p.lines, b.call = none) ∧
    (∀ b ∈ p.lines, b.OnGrid places) ∧ r.lines.length = edited.1.lines.length ∧ words.length = 3 ∧
    ∃ b c, edited.1.lines[3]? = some b ∧ r.lines[3]? = some c ∧
      b.place.target.x = 10002 / 10000 ∧ c.place.target.x = 999 / 1000 ∧
      c.place.target.x - b.place.target.x = (words.map (Block.roundingError places .x)).sum ∧
      1 / 10 ^ places < |c.place.target.x - b.place.target.x| := by
  intro _ settings places p edit edited r words
  have hfollow : ∀ surface, edit ≠ .follow surface := by simp [edit]
  have hoffset : ∀ anchor extra, edit ≠ .offset anchor extra := by simp [edit]
  have hcall : ∀ b ∈ p.lines, b.call = none := by decide +kernel
  have hgrid : ∀ b ∈ p.lines, b.OnGrid places := by decide +kernel
  have hwords : words.length = 3 := by decide +kernel
  have hb : edited.1.lines[3]?.map (·.place.target.x) = some (10002 / 10000) := by decide +kernel
  have hc : r.lines[3]?.map (·.place.target.x) = some (999 / 1000) := by decide +kernel
  obtain ⟨b, hb, hbx⟩ := Option.map_eq_some_iff.mp hb
  obtain ⟨c, hc, hcx⟩ := Option.map_eq_some_iff.mp hc
  obtain ⟨hlength, hdrift⟩ := drift_read_apply _ settings .default edit hfollow hoffset hcall
  obtain ⟨hoff, -, -⟩ := hdrift 3 b c hb hc .x
  have hfar : (1 : ℚ) / 10 ^ 3 < |999 / 1000 - 10002 / 10000| := by norm_num
  refine ⟨⟨hfollow, hoffset, hcall⟩, hgrid, hlength, hwords, b, c, hb, hc, hbx, hcx, hoff, ?_⟩
  rw [hbx, hcx]
  exact hfar

end PartProgram
