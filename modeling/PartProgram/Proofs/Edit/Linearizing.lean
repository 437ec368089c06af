import PartProgram.Proofs.Edit.Cutting
import PartProgram.Proofs.Program.Expansion

/-! # The path in pieces

A program whose arcs and long moves have been cut takes the tool to every place to which the program took
it. A subroutine line is cut where it stands in the text, so its copies have to run as it was read there.
-/

namespace PartProgram

section

variable {α : Type} [Scalar α]

/-- Copies of a line without an arc run no arc. If the line is cut, its copies run in the distance mode in
which it has been read, and in absolute coordinates they end where the line ends. -/
def Program.RunsAsCut (p : Program α) (maxStep : α) : Prop :=
  ∀ e ∈ p.entries, ∀ c ∈ e.copies, ∀ line ∈ p.lines[c.definition]?,
    (line.place.arc.isNone = true → c.block.place.arc.isNone = true) ∧
      (line.isCut maxStep = true → c.block.absolute = line.absolute ∧
        (line.absolute = true → c.block.place.target.x = line.place.target.x ∧
          c.block.place.target.y = line.place.target.y))

theorem motion_after {m m' : Modal α} {line text : String}
    (h : m'.motion = m.motion ∨ m'.motion = .linear) (hwords : wordsOf line = wordsOf text) :
    (m'.after line).motion = (m.after text).motion ∨ (m'.after line).motion = .linear := by
  simp only [Modal.after, hwords, Word.latest_eq_getLast?]
  cases ((wordsOf text).filterMap (Word.motion? α)).getLast? with
  | none => exact h
  | some motion => exact .inl rfl

end

variable {α : Type} [Field α] [LinearOrder α] [IsStrictOrderedRing α] [FloorRing α] [PlaneFunctions α]

/-! ### Steps and the lines that stand for them -/

/-- The lines that a step gives way to: its own words, if it runs no arc, or the pieces of a move that
ends where the step ends. -/
inductive Block.ToldBy (places : ℕ) (b : Block α) : List String → Prop where
  | copied {line : String} (hwords : wordsOf line = wordsOf b.text) (harc : b.place.arc = none) :
      ToldBy places b [line]
  | cut {c : Cut α} {lines : List String} (hmove : c.OfMove) (hplaces : c.places = places)
      (htext : c.source.text = b.text) (haxes : c.source.axes = (lineWords b.text).axes)
      (hlines : c.SpellsMove (fun _ => True) lines) (habsolute : b.absolute = c.source.absolute)
      (htarget : c.source.absolute = true → ∀ d : PathAxis, d ≠ .z →
        b.place.target.on d = c.source.place.target.on d) : ToldBy places b lines

/-- The steps lead where the first one led, without an arc. -/
structure Block.KeptBy {α : Type} (b : Block α) (steps : List (Block α)) : Prop where
  target : ∃ b' ∈ steps, b'.place.target = b.place.target
  straight : ∀ b' ∈ steps, b'.place.arc = none

/-- Two tools on their way at the same place, in the same distance mode, and in the same motion unless the
second one cuts straight. -/
structure Together (places : ℕ) (s s' : Modal α × Position α) : Prop where
  agree : Agree places (fun _ => True) s s'
  motion : s'.1.motion = s.1.motion ∨ s'.1.motion = .linear

variable {places : ℕ} {s s' : Modal α × Position α} {b : Block α} {lines : List String}

/-- The tools stay together along a step and the lines that stand for it. -/
theorem Block.ToldBy.travel (h : b.ToldBy places lines)
    (hframe : (lineWords b.text : LineWords α).machineFrame = false)
    (hgrid : ∀ d : PathAxis, ∀ v ∈ (lineWords b.text : LineWords α).axes.get d.axis,
      PartProgram.OnGrid places v)
    (hs : Together places s s') (machine : Machine α) (hb : (travel machine s b.text).2 = b.moving) :
    Together places (PartProgram.travel machine s b.text).1 (pass (PartProgram.travel machine) s' lines).1 ∧
      b.KeptBy (pass (PartProgram.travel machine) s' lines).2 := by
  have hposition : ∀ t' : Modal α × Position α, Together places (PartProgram.travel machine s b.text).1 t' →
      t'.2 = b.place.target := by
    intro t' ht
    exact (Position.ext_on fun d => ht.agree.position d trivial).trans (target_of_travel_eq hb)
  cases h with
  | @copied line hwords harc =>
      have hline : (lineWords line : LineWords α) = lineWords b.text := by rw [lineWords, hwords, lineWords]
      have habsolute : (s'.1.after line).absolute = (s.1.after b.text).absolute := by
        rw [Modal.after, Modal.after, hwords, hs.agree.absolute]
      have hmotion := motion_after hs.motion hwords
      have htogether : Together places (PartProgram.travel machine s b.text).1
          (PartProgram.travel machine s' line).1 := by
        refine ⟨hs.agree.travel hframe (fun d _ => hgrid d) (by rw [travel_modal, habsolute]) ?_ machine, ?_⟩
        · intro d _
          rw [travel_on (hline ▸ hframe), habsolute, hline]
        · rwa [travel_modal, travel_modal]
      have hnone : (PartProgram.travel machine s' line).2.place.arc = none := by
        have harc₀ : (PartProgram.travel machine s b.text).2.place.arc.isSome = false := by
          rw [hb]
          exact Option.isSome_eq_false_iff.mpr (Option.isNone_iff_eq_none.mpr harc)
        rw [isSome_travel_arc] at harc₀
        rw [← Option.isNone_iff_eq_none, ← Option.isSome_eq_false_iff, isSome_travel_arc, hline]
        rcases hmotion with hsame | hlinear
        · rw [hsame, harc₀]
        · rw [hlinear]
          rfl
      rw [pass_cons, pass_nil]
      exact ⟨htogether, ⟨_, List.mem_singleton_self _, hposition _ htogether⟩, by simpa using hnone⟩
  | @cut c lines hmove hplaces htext haxes hlines habsolute htarget =>
      subst hplaces
      have habs : (s.1.after c.source.text).absolute = c.source.absolute := by
        rw [htext, absolute_of_travel_eq hb, habsolute]
      have hoffsets : ∀ line ∈ lines,
          (lineWords line : LineWords α).i = none ∧ (lineWords line : LineWords α).j = none :=
        hlines.forall_mem fun _ _ hline => ⟨hline.i, hline.j⟩
      have hstep := hmove.agree (htext ▸ haxes) (htext ▸ hframe)
        (fun d _ => htext ▸ hgrid d) hlines hs.agree machine habs ?_
      · rw [htext] at hstep
        have htogether : Together c.places (PartProgram.travel machine s b.text).1
            (pass (PartProgram.travel machine) s' lines).1 := ⟨hstep.1, .inr hstep.2⟩
        obtain ⟨steps, b', hsteps, hlast⟩ := exists_travel_append machine (hlines.ne_nil hmove.count) s'
        refine ⟨htogether, ⟨b', hsteps ▸ by simp, hlast.trans (hposition _ htogether)⟩, ?_⟩
        intro b' hb'
        obtain ⟨s₁, line, hline, rfl⟩ := exists_of_mem_pass hb'
        obtain ⟨hi, hj⟩ := hoffsets line hline
        rw [← Option.isNone_iff_eq_none, ← Option.isSome_eq_false_iff, isSome_travel_arc, hi, hj]
        simp
      · intro habs d _ hd
        rw [htext, target_of_travel_eq hb]
        exact htarget habs d hd

/-! ### Lines and their groups -/

variable {format : NumberFormat} {maxStep : α} {group : List String}

/-- The group is the part of the listing for the block, cut into pieces and read again. -/
def Block.WrittenAs (format : NumberFormat) (maxStep : α) (b : Block α) (group : List String) : Prop :=
  List.Forall₂ (fun b line => ∃ e, line = b.reread format e)
    (b.linearized maxStep (some maxStep) format.decimalPlaces) group

/-- A line is copied, or it gives way to the pieces of its move. -/
theorem Block.WrittenAs.cases (hgroup : b.WrittenAs format maxStep group) (hfrom : b.FromText)
    (hm : b.modified = false) (hframe : b.machineFrame = false)
    (hplaced : ∀ d, b.place.target.on d = reach b.absolute (b.axes.get d.axis) (b.place.origin.on d))
    (harc : b.place.arc.isSome = (b.motion.isArc && (b.i.isSome || b.j.isSome))) :
    (b.isEditable && b.isCut maxStep) = false ∧ (∃ line, group = [line] ∧ wordsOf line = wordsOf b.text) ∨
      b.isCut maxStep = true ∧ ∃ c : Cut α, c.source = b ∧ c.OfMove ∧ c.places = format.decimalPlaces ∧
        c.SpellsMove (fun _ => True) group := by
  rw [WrittenAs] at hgroup
  rcases linearized_cases (fun _ _ h => toNat_ne_zero h) harc maxStep format.decimalPlaces with
    ⟨hidle, hb⟩ | ⟨hcut, c, rfl, hcount, hfinish, hplaces, hb⟩
  · rw [hb] at hgroup
    obtain ⟨line, rest, ⟨e, hline⟩, hrest, rfl⟩ := List.forall₂_cons_left_iff.mp hgroup
    obtain rfl := List.forall₂_nil_left_iff.mp hrest
    refine .inl ⟨hidle, line, rfl, ?_⟩
    rw [hline, wordsOf_reread format e hfrom, if_neg (by simp [hm])]
  · rw [hb, Cut.pieces, List.forall₂_map_left_iff] at hgroup
    refine .inr ⟨(Bool.and_eq_true _ _ ▸ hcut).2, c, rfl, ⟨hcount, hfinish, hplaced⟩, hplaces, ?_⟩
    refine hgroup.imp fun k line hline => ?_
    obtain ⟨e, rfl⟩ := hline
    exact (Cut.isPiece_piece (k + 1)).spellsPiece hfrom hframe hplaces e

omit [IsStrictOrderedRing α] in
/-- The pieces of a move are a group: the first one has the codes of the line, the others have none. -/
theorem Cut.isGroup_pieces {c : Cut α} (hcount : c.count ≠ 0) (hlines : c.SpellsMove (fun _ => True) group)
    (halone : (LineCodes.ofLine α c.source.text).call?.isSome ∨ (LineCodes.ofLine α c.source.text).o.isSome →
      group.length ≤ 1) :
    Source.IsGroup α c.source.text group := by
  obtain ⟨n, hn⟩ := Nat.exists_eq_succ_of_ne_zero hcount
  rw [Cut.SpellsMove, hn, List.range_succ_eq_map] at hlines
  obtain ⟨first, rest, hfirst, hrest, rfl⟩ := List.forall₂_cons_left_iff.mp hlines
  rw [List.forall₂_map_left_iff] at hrest
  refine ⟨by simp, ?_, ?_, ?_⟩
  · intro line hline
    obtain rfl : first = line := by simpa using hline
    simpa using hfirst.codes
  · exact forall_mem_of_forall₂ (fun k line hline _ => by simpa using hline.codes) hrest fun _ _ => trivial
  · intro hcodes
    have hlength := halone hcodes
    simpa using hlength

namespace Program

/-- What is asked of the lines of a program: they may be edited, their coordinates are on the grid of the last
written place, and a line that calls or names a subroutine is not cut in two. -/
structure Cuttable (p : Program α) (format : NumberFormat) (maxStep : α) : Prop where
  editable : ∀ b ∈ p.lines, b.isEditable = true
  grid : ∀ b ∈ p.lines, ∀ d : PathAxis, ∀ v ∈ b.axes.get d.axis, OnGrid format.decimalPlaces v
  whole : ∀ b ∈ p.lines, 1 < (b.linearized maxStep (some maxStep) format.decimalPlaces).length →
    b.call = none ∧ b.label = none

variable {settings : Settings α} {machine : Machine α}

omit [IsStrictOrderedRing α] in
/-- The lines of the listing in groups, one group for each line of the program. -/
theorem exists_groups_linearListing {p : Program α} (hp : ∀ b ∈ p.lines, b.Unbroken) (format : NumberFormat)
    (maxStep : α) :
    ∃ groups, Text.lines (linearListing format maxStep p.lines) = groups.flatten ∧
      List.Forall₂ (Block.WrittenAs format maxStep) p.lines groups := by
  have hflat : List.Forall₂ (fun b line => ∃ e, line = b.reread format e)
      (p.lines.map (Block.linearized maxStep (some maxStep) format.decimalPlaces)).flatten
      (Text.lines (linearListing format maxStep p.lines)) := by
    rw [linearListing, List.flatMap_def]
    refine forall₂_lines_listing ?_ format
    intro b hb
    obtain ⟨b₀, hb₀, hb⟩ := List.mem_flatMap.mp (List.flatMap_def ▸ hb)
    exact (hp b₀ hb₀).linearized _ _ _ b hb
  obtain ⟨groups, hlines, hgroups⟩ := exists_groups_of_forall₂ hflat
  rw [List.forall₂_map_left_iff] at hgroups
  exact ⟨groups, hlines, hgroups⟩

/-- What is known of a line that may be edited and of its group. -/
theorem group_cases_of_mem_lines {lines : List String}
    (heditable : ∀ b ∈ (ofLines lines settings machine).lines, b.isEditable = true) {b : Block α}
    (hb : b ∈ (ofLines lines settings machine).lines) {group : List String}
    (hgroup : b.WrittenAs format maxStep group) :
    b.FromText ∧ b.modified = false ∧
    (b.isCut maxStep = false ∧ b.place.arc = none ∧ (∃ line, group = [line] ∧ wordsOf line = wordsOf b.text) ∨
      b.isCut maxStep = true ∧ ∃ c : Cut α, c.source = b ∧ c.OfMove ∧ c.places = format.decimalPlaces ∧
        c.SpellsMove (fun _ => True) group) := by
  have hexecuted := lines_subset_executed _ hb
  have hframe := machineFrame_executed heditable b hexecuted
  have hfrom := fromText_ofLines lines settings machine b hb
  have hm : b.modified = false := modified_place (modified_asRead lines settings) machine b hb
  have harc := isSome_arc_of_mem_executed hexecuted
  refine ⟨hfrom, hm, ?_⟩
  rcases hgroup.cases hfrom hm hframe (target_on_of_mem_executed hexecuted hframe) harc with
    ⟨hidle, hline⟩ | hcut
  · rw [heditable b hb, Bool.true_and] at hidle
    refine .inl ⟨hidle, ?_, hline⟩
    rw [Block.isCut, ← harc, Bool.or_eq_false_iff] at hidle
    simpa using hidle.1
  · exact .inr hcut

/-- The groups of a program can stand for its lines. -/
theorem Cuttable.isGroup {lines : List String} (h : (ofLines lines settings machine).Cuttable format maxStep)
    {groups : List (List String)}
    (hgroups : List.Forall₂ (Block.WrittenAs format maxStep) (ofLines lines settings machine).lines groups) :
    List.Forall₂ (Source.IsGroup α) lines groups := by
  rw [← texts_ofLines lines settings machine, List.forall₂_map_left_iff]
  refine ((List.forall₂_and_left _ _).mpr ⟨fun b hb => hb, hgroups⟩).imp fun b group ⟨hb, hgroup⟩ => ?_
  obtain ⟨hfrom, -, ⟨-, -, line, rfl, hwords⟩ | ⟨-, c, rfl, hmove, -, hlines⟩⟩ :=
    group_cases_of_mem_lines h.editable hb hgroup
  · exact Source.isGroup_singleton (by rw [LineCodes.ofLine_eq, LineCodes.ofLine_eq, hwords])
  · refine Cut.isGroup_pieces hmove.count hlines fun hcodes => ?_
    rw [← hgroup.length_eq, ← not_lt]
    intro htwo
    obtain ⟨hcall, hlabel⟩ := h.whole c.source hb htwo
    obtain ⟨n, m, hread⟩ := exists_read_of_mem_lines hb
    have hcodes_label := congrArg Block.label hread
    rw [Block.read_snd] at hcodes_label
    change c.source.label = (LineCodes.ofLine α c.source.text).o at hcodes_label
    rw [← hfrom.call, ← hcodes_label, hcall, hlabel] at hcodes
    simp at hcodes

/-- Every step is told by the group of its line. -/
theorem Cuttable.toldBy {lines : List String} (h : (ofLines lines settings machine).Cuttable format maxStep)
    (hcopies : (ofLines lines settings machine).RunsAsCut maxStep) {groups : List (List String)}
    (hgroups : List.Forall₂ (Block.WrittenAs format maxStep) (ofLines lines settings machine).lines groups)
    {b : Block α} (hb : b ∈ (ofLines lines settings machine).executed) :
    b.ToldBy format.decimalPlaces (groups.getD b.number [""]) := by
  obtain ⟨hfrom, hm, htext, hline⟩ := line_or_copy_of_mem_executed hb
  have harc := isSome_arc_of_mem_executed hb
  obtain ⟨haxes, hi, hj⟩ := hfrom.unmodified hm
  cases hget : (ofLines lines settings machine).lines[b.number]? with
  | none =>
      have hlines : lines[b.number]? = none := by
        rw [← texts_ofLines lines settings machine, List.getElem?_map, hget]
        rfl
      have hgroup : groups[b.number]? = none := by
        rwa [List.getElem?_eq_none_iff, ← hgroups.length_eq, ← List.getElem?_eq_none_iff]
      have hempty : b.text = "" := by rw [htext, List.getD_eq_getElem?_getD, hlines, Option.getD_none]
      rw [List.getD_eq_getElem?_getD, hgroup, Option.getD_none]
      refine .copied (by rw [hempty]) ?_
      rw [hi, hj, hempty, lineWords, wordsOf_empty] at harc
      simpa using harc
  | some line =>
      obtain ⟨group, hgroup, hrereads⟩ := exists_getElem?_of_forall₂ hgroups hget
      have hsame : line.text = b.text := by
        rw [htext, List.getD_eq_getElem?_getD, ← texts_ofLines lines settings machine, List.getElem?_map, hget]
        rfl
      have hruns : (line.place.arc.isNone = true → b.place.arc.isNone = true) ∧
          (line.isCut maxStep = true → b.absolute = line.absolute ∧ (line.absolute = true →
            b.place.target.x = line.place.target.x ∧ b.place.target.y = line.place.target.y)) := by
        rcases hline with hline | ⟨e, he, c, hc, rfl, hdefinition⟩
        · obtain rfl : line = b := Option.some.inj (hget.symm.trans hline)
          exact ⟨id, fun _ => ⟨rfl, fun _ => ⟨rfl, rfl⟩⟩⟩
        · exact hcopies e he c hc line (hdefinition ▸ hget)
      rw [List.getD_eq_getElem?_getD, hgroup, Option.getD_some]
      obtain ⟨hfrom', hm', ⟨-, hnone, told, rfl, hwords⟩ | ⟨hcut, c, rfl, hmove, hplaces, hlines⟩⟩ :=
        group_cases_of_mem_lines h.editable (List.mem_of_getElem? hget) hrereads
      · have harc : b.place.arc.isNone = true := hruns.1 (by rw [hnone]; rfl)
        exact .copied (hwords.trans (by rw [hsame])) (Option.isNone_iff_eq_none.mp harc)
      · obtain ⟨habsolute, htarget⟩ := hruns.2 hcut
        refine .cut hmove hplaces hsame ?_ hlines habsolute ?_
        · rw [← hsame]
          exact (hfrom'.unmodified hm').1
        · intro habs d hd
          cases d with
          | x => exact (htarget habs).1
          | y => exact (htarget habs).2
          | z => exact absurd rfl hd

/-- After its arcs and long moves have been cut, a program takes the tool to all the places to which it took
it, in the same order, and it runs no arc any more. -/
theorem path_linearized (text : String) (settings : Settings α) (machine : Machine α) (maxStep : α)
    (hlines : (read text settings machine).Cuttable settings.format maxStep)
    (hcopies : (read text settings machine).RunsAsCut maxStep)
    (hwork : ∀ d, OnGrid settings.format.decimalPlaces (machine.workPosition.on d)) :
    let p := read text settings machine
    let r := read (linearListing settings.format maxStep p.lines) settings machine
    (p.executed.map (·.place.target)).Sublist (r.executed.map (·.place.target)) ∧
      ∀ b ∈ r.executed, b.place.arc = none := by
  intro p r
  obtain ⟨groups, htext, hgroups⟩ := exists_groups_linearListing
    (unbroken_ofLines (fun _ => Text.not_mem_of_mem_lines) settings machine) settings.format maxStep (p := p)
  have htexts : r.executed.map (·.text) = (p.executed.map fun b => groups.getD b.number [""]).flatten := by
    have hgroup := texts_executed_groups (hlines.isGroup hgroups) settings machine
    rw [← htext] at hgroup
    rw [← List.flatMap_def]
    exact hgroup
  have hstart : Together settings.format.decimalPlaces (Modal.initial, machine.workPosition)
      ((Modal.initial : Modal α), machine.workPosition) := ⟨⟨rfl, fun _ _ => rfl, fun d _ => hwork d⟩, .inl rfl⟩
  have htold : List.Forall₂ (fun b group => b ∈ p.executed ∧ b.ToldBy settings.format.decimalPlaces group)
      p.executed (p.executed.map fun b => groups.getD b.number [""]) := by
    rw [List.forall₂_map_right_iff, List.forall₂_same]
    exact fun b hb => ⟨hb, hlines.toldBy hcopies hgroups hb⟩
  have hstep : ∀ (b : Block α) (group : List String) (s s' : Modal α × Position α),
      b ∈ p.executed ∧ b.ToldBy settings.format.decimalPlaces group →
      Together settings.format.decimalPlaces s s' → (travel machine s b.text).2 = b.moving →
        Together settings.format.decimalPlaces (travel machine s b.text).1 (pass (travel machine) s' group).1 ∧
          b.KeptBy (pass (travel machine) s' group).2 := by
    intro b group s s' ⟨hb, hgroup⟩ hs hmoving
    have hframe : (lineWords b.text : LineWords α).machineFrame = false := by
      rw [← (line_or_copy_of_mem_executed hb).1.machineFrame]
      exact machineFrame_executed hlines.editable b hb
    exact hgroup.travel hframe (fun d => onGrid_executed (fun b hb => hlines.grid b hb d) hb) hs machine hmoving
  obtain ⟨-, travelled, htravelled, hpath⟩ := exists_travel_groups hstep htold hstart
    (pass_travel_executed (Text.lines text) settings machine)
  have hmoving : r.executed.map Block.moving = travelled.flatten := by
    rw [← htravelled, ← htexts]
    exact (pass_travel_executed _ settings machine).symm
  refine ⟨?_, ?_⟩
  · have htargets : r.executed.map (·.place.target) = travelled.flatten.map (·.place.target) := by
      rw [← hmoving, List.map_map]
      rfl
    rw [htargets]
    exact sublist_flatten_of_forall₂ (hpath.imp fun _ _ h => h.target)
  · intro b hb
    have hmem : b.moving ∈ travelled.flatten := hmoving ▸ List.mem_map_of_mem hb
    obtain ⟨group, hgroup, hb'⟩ := List.mem_flatten.mp hmem
    have harcs : ∀ group ∈ travelled, ∀ b' ∈ group, b'.place.arc = none :=
      forall_mem_of_forall₂ (fun _ _ h _ => h.straight) hpath fun _ _ => trivial
    exact harcs group hgroup b.moving hb'

/-- A half circle, and a subroutine that is called from two places in relative distances. -/
theorem path_linearized_subroutine :
    let _ := PlaneFunctions.axial
    let settings : Settings ℚ := .default
    let machine : Machine ℚ := .default
    let p := read "G91 G2 X2 I1 F100\nM98 P1 L2\nG0 Y1\nM30\nO1\nG1 X3\nM99\n" settings machine
    let r := read (linearListing settings.format 1 p.lines) settings machine
    (p.Cuttable settings.format 1 ∧ p.RunsAsCut 1 ∧
      ∀ d, OnGrid settings.format.decimalPlaces (machine.workPosition.on d)) ∧
    p.executed.length = 9 ∧ p.executed[3]?.map (·.place.target) = some ⟨8, 0, 0⟩ ∧ r.executed.length = 16 ∧
    (p.executed.map (·.place.target)).Sublist (r.executed.map (·.place.target)) ∧
      ∀ b ∈ r.executed, b.place.arc = none := by
  intro _ settings machine p r
  have hgrid : ∀ b ∈ p.lines, ∀ d : PathAxis, ∀ v ∈ b.axes.get d.axis,
      OnGrid settings.format.decimalPlaces v := by
    intro b hb d
    cases d
    case x => exact (by decide +kernel : ∀ b ∈ p.lines, ∀ v ∈ b.axes.get .x, OnGrid 3 v) b hb
    case y => exact (by decide +kernel : ∀ b ∈ p.lines, ∀ v ∈ b.axes.get .y, OnGrid 3 v) b hb
    case z => exact (by decide +kernel : ∀ b ∈ p.lines, ∀ v ∈ b.axes.get .z, OnGrid 3 v) b hb
  have hlines : p.Cuttable settings.format 1 := ⟨by decide +kernel, hgrid, by decide +kernel⟩
  have hcopies : p.RunsAsCut 1 := by
    unfold RunsAsCut
    decide +kernel
  have hwork : ∀ d, OnGrid settings.format.decimalPlaces (machine.workPosition.on d) := by
    intro d
    cases d <;> decide +kernel
  exact ⟨⟨hlines, hcopies, hwork⟩, by decide +kernel, by decide +kernel, by decide +kernel,
    path_linearized _ settings machine 1 hlines hcopies hwork⟩

end Program

end PartProgram
