import PartProgram.Proofs.Edit.Flattening

/-! # The path over a surface

In the plane, a program that follows a surface takes the tool to every place where the program took it, as
long as what is left out with the calls has no effect on the path.
-/

namespace PartProgram

variable {α : Type} [Field α] [LinearOrder α] [IsStrictOrderedRing α] [FloorRing α] [PlaneFunctions α]

variable {places : ℕ} {s s' : Modal α × Position α} {line text : String}

omit [LinearOrder α] [IsStrictOrderedRing α] [FloorRing α] [PlaneFunctions α] in
theorem Agree.xy (h : Agree places (· ≠ .z) s s') : s'.2.xy = s.2.xy :=
  congrArg₂ Point.mk (h.position .x (by decide)) (h.position .y (by decide))

omit [IsStrictOrderedRing α] in
/-- Idle lines keep the tools together. -/
theorem Agree.idle (h : Agree places (· ≠ .z) s s') (htext : IsIdle α text) (hline : IsIdle α line)
    (machine : Machine α) :
    Agree places (· ≠ .z) (PartProgram.travel machine s text).1 (PartProgram.travel machine s' line).1 where
  absolute := by
    rw [travel_modal, travel_modal, Modal.after, Modal.after, Word.latest_of_none _ _ htext.distance,
      Word.latest_of_none _ _ hline.distance, h.absolute]
  position := by
    intro d hd
    rw [travel_on_of_eq_none machine s (htext.plane d hd), travel_on_of_eq_none machine s' (hline.plane d hd),
      h.position d hd]
  grid := by
    intro d hd
    rw [travel_on_of_eq_none machine s (htext.plane d hd)]
    exact h.grid d hd

/-! ### Steps and the lines that stand for them -/

/-- The lines that a step gives way to in the new program: a line with its words for the plane, the pieces of
its move, or a comment. -/
inductive Block.FollowedBy (maxStep : α) (places : ℕ) (b : Block α) : List String → Prop where
  | spelt {q : Block α} {line : String} (hruns : b.isBlanked = false) (hspells : q.Spells places line)
      (htext : q.text = b.text)
      (haxes : ∀ d : PathAxis, d ≠ .z → q.axes.get d.axis = (lineWords b.text).axes.get d.axis) :
      FollowedBy maxStep places b [line]
  | cut {c : Cut α} {lines : List String} (hruns : b.isBlanked = false) (hcut : b.isCut maxStep = true)
      (hmove : c.OfMove) (hplaces : c.places = places) (hsource : c.source = b)
      (haxes : b.axes = (lineWords b.text).axes) (hlines : c.SpellsMove (· ≠ .z) lines) :
      FollowedBy maxStep places b lines
  | comment {line : String} (hblanked : b.isBlanked = true)
      (hwords : wordsOf line = wordsOf (Program.flattenLine b).text)
      (hunmarked : Markers.onLine ({} : Markers).hideStart (Program.flattenLine b).text = false →
        Markers.onLine ({} : Markers).hideStart line = false) : FollowedBy maxStep places b [line]

variable {maxStep : α} {b : Block α} {lines group : List String}

omit [IsStrictOrderedRing α] in
/-- A comment has the words that are left of its line. -/
theorem IsIdle.of_words_eq (h : IsIdle α text) (hwords : wordsOf line = wordsOf text) : IsIdle α line := by
  have hline : (lineWords line : LineWords α) = lineWords text := by rw [lineWords, hwords, lineWords]
  exact ⟨hline ▸ h.plane, hwords ▸ h.distance, hline ▸ h.frame⟩

namespace Block.FollowedBy

omit [IsStrictOrderedRing α] in
theorem ne_nil (h : b.FollowedBy maxStep places lines) : lines ≠ [] := by
  cases h with
  | spelt | comment => simp
  | cut _ _ hmove _ _ _ hlines => exact hlines.ne_nil hmove.count

omit [IsStrictOrderedRing α] in
/-- The lines of a step have the codes that are left of its line, or none. -/
theorem codes (h : b.FollowedBy maxStep places lines) :
    ∀ line ∈ lines, LineCodes.ofLine α line = LineCodes.ofLine α (Program.flattenLine b).text ∨
      LineCodes.ofLine α line = {} := by
  cases h with
  | spelt hruns hspells htext =>
      intro line hline
      rw [List.mem_singleton.mp hline, Program.flattenLine_of_not_isBlanked hruns, ← htext]
      exact .inl hspells.codes
  | @cut c _ hruns _ _ _ hsource _ hlines =>
      refine hlines.forall_mem fun k line hline => ?_
      rw [Program.flattenLine_of_not_isBlanked hruns, ← hsource, hline.codes]
      split
      · exact .inl rfl
      · exact .inr rfl
  | comment _ hwords =>
      intro line hline
      rw [List.mem_singleton.mp hline, LineCodes.ofLine_eq, hwords, ← LineCodes.ofLine_eq]
      exact .inl rfl

omit [IsStrictOrderedRing α] in
theorem endsProgram (h : b.FollowedBy maxStep places lines)
    (hend : (LineCodes.ofLine α (Program.flattenLine b).text).endsProgram = false) :
    ∀ line ∈ lines, (LineCodes.ofLine α line).endsProgram = false := by
  intro line hline
  rcases h.codes line hline with hcodes | hcodes
  · rw [hcodes, hend]
  · rw [hcodes]
    rfl

omit [IsStrictOrderedRing α] in
/-- No hidden section starts on the lines of a step if none starts on its line. -/
theorem unmarked (h : b.FollowedBy maxStep places lines)
    (hunmarked : Markers.onLine ({} : Markers).hideStart b.text = false) :
    ∀ line ∈ lines, Markers.onLine ({} : Markers).hideStart line = false := by
  cases h with
  | spelt _ hspells htext =>
      intro line hline
      rw [List.mem_singleton.mp hline]
      exact hspells.unmarked (htext ▸ hunmarked)
  | cut _ _ _ _ hsource _ hlines =>
      exact hlines.forall_mem fun _ _ hline => hline.unmarked (hsource ▸ hunmarked)
  | comment _ _ hcomment =>
      intro line hline
      rw [List.mem_singleton.mp hline]
      exact hcomment (Program.unmarked_flattenLine hunmarked)

omit [IsStrictOrderedRing α] in
/-- No line of a step leaves the work coordinates. -/
theorem machineFrame (h : b.FollowedBy maxStep places lines)
    (hcomment : b.isBlanked = true → IsIdle α (Program.flattenLine b).text) :
    ∀ line ∈ lines, (lineWords line : LineWords α).machineFrame = false := by
  cases h with
  | spelt _ hspells =>
      intro line hline
      rw [List.mem_singleton.mp hline]
      exact hspells.machineFrame
  | cut _ _ _ _ _ _ hlines =>
      exact hlines.forall_mem fun _ _ hline => hline.machineFrame
  | comment hblanked hwords =>
      intro line hline
      rw [List.mem_singleton.mp hline]
      exact ((hcomment hblanked).of_words_eq hwords).frame

omit [IsStrictOrderedRing α] in
theorem length_of_isCut_eq_false (h : b.FollowedBy maxStep places lines) (hcut : b.isCut maxStep = false) :
    lines.length = 1 := by
  cases h with
  | spelt | comment => rfl
  | cut _ hcut' => simp [hcut] at hcut'

omit [IsStrictOrderedRing α] in
/-- A comment is idle. -/
theorem idle (h : b.FollowedBy maxStep places lines) (hblanked : b.isBlanked = true)
    (hcomment : IsIdle α (Program.flattenLine b).text) : ∀ line ∈ lines, IsIdle α line := by
  cases h with
  | spelt hruns | cut hruns => simp [hblanked] at hruns
  | comment _ hwords =>
      intro line hline
      rw [List.mem_singleton.mp hline]
      exact hcomment.of_words_eq hwords

/-- The tools stay together in the plane along a step and the lines that stand for it. -/
theorem travel (h : b.FollowedBy maxStep places lines)
    (hidle : b.isBlanked = true → IsIdle α b.text ∧ IsIdle α (Program.flattenLine b).text)
    (hframe : (lineWords b.text : LineWords α).machineFrame = false)
    (hgrid : ∀ d : PathAxis, d ≠ .z → ∀ v ∈ (lineWords b.text : LineWords α).axes.get d.axis,
      PartProgram.OnGrid places v)
    (hs : Agree places (· ≠ .z) s s') (machine : Machine α)
    (hb : (PartProgram.travel machine s b.text).2 = b.moving) :
    Agree places (· ≠ .z) (PartProgram.travel machine s b.text).1
        (pass (PartProgram.travel machine) s' lines).1 ∧
      ∃ b' ∈ (pass (PartProgram.travel machine) s' lines).2, b'.place.target.xy = b.place.target.xy := by
  have hagree : Agree places (· ≠ .z) (PartProgram.travel machine s b.text).1
      (pass (PartProgram.travel machine) s' lines).1 := by
    cases h with
    | spelt _ hspells htext haxes => exact hspells.agree htext haxes hframe hgrid hs machine
    | comment hblanked hwords =>
        exact hs.idle (hidle hblanked).1 ((hidle hblanked).2.of_words_eq hwords) machine
    | @cut c _ _ _ hmove hplaces hsource haxes hlines =>
        subst hplaces hsource
        refine (hmove.agree haxes hframe hgrid hlines hs machine (absolute_of_travel_eq hb) fun _ d _ _ => ?_).1
        rw [target_of_travel_eq hb]
  obtain ⟨steps, b', hsteps, hlast⟩ := exists_travel_append machine h.ne_nil s'
  refine ⟨hagree, b', hsteps ▸ by simp, ?_⟩
  rw [hlast, ← target_of_travel_eq hb]
  exact hagree.xy

end Block.FollowedBy

/-- A step gives way to its line as it has been raised, to the pieces of its move, or to a comment. -/
theorem Program.followedBy_of_mem_executed {lines : List String} {settings : Settings α} {machine : Machine α}
    (heditable : ∀ b ∈ (ofLines lines settings machine).lines, b.isEditable = true)
    (hhypot : Scalar.hypot 0 0 = (0 : α)) {b : Block α} (hb : b ∈ (ofLines lines settings machine).executed)
    {format : NumberFormat} {maxStep : α} {group : List String}
    (hgroup : List.Forall₂ (fun b line => ∃ q, b.Raised q ∧ ∃ e, line = q.reread format e)
      ((flattenLine b).linearized maxStep (some maxStep) format.decimalPlaces) group) :
    b.FollowedBy maxStep format.decimalPlaces group := by
  obtain ⟨hfrom, hm, -, -⟩ := line_or_copy_of_mem_executed hb
  have hframe := machineFrame_executed heditable b hb
  obtain ⟨haxes, -, -⟩ := hfrom.unmodified hm
  cases hblanked : b.isBlanked with
  | true =>
      obtain ⟨before, after, -, heq⟩ := exists_flattenLine_eq hblanked
      rw [heq, Block.linearized_standIn hhypot] at hgroup
      obtain ⟨line, rest, ⟨q, hq, e, hline⟩, hrest, rfl⟩ := List.forall₂_cons_left_iff.mp hgroup
      obtain rfl := List.forall₂_nil_left_iff.mp hrest
      have hsame : q.modified = false := hq.idle rfl rfl
      have htext : q.text = (flattenLine b).text := by rw [hq.edit.text, heq]
      rw [hline]
      exact .comment hblanked (by rw [Block.wordsOf_reread_of_unmodified format e hsame, htext])
        (htext ▸ Block.unmarked_reread_of_unmodified format e hsame)
  | false =>
      rw [flattenLine_of_not_isBlanked hblanked] at hgroup
      rcases Block.linearized_cases (fun _ _ h => toNat_ne_zero h) (isSome_arc_of_mem_executed hb) maxStep
        format.decimalPlaces with ⟨-, hlines⟩ | ⟨hcut, c, hsource, hcount, hfinish, hplaces, hlines⟩
      · rw [hlines] at hgroup
        obtain ⟨line, rest, ⟨q, hq, e, hline⟩, hrest, rfl⟩ := List.forall₂_cons_left_iff.mp hgroup
        obtain rfl := List.forall₂_nil_left_iff.mp hrest
        rw [hline]
        have hspells := (hfrom.edit hq.edit).spells (hq.edit.machineFrame.trans hframe) format e
        exact .spelt hblanked hspells hq.edit.text fun d hd => by rw [hq.axes d hd, haxes]
      · subst hsource
        rw [hlines, Cut.pieces, List.forall₂_map_left_iff] at hgroup
        rw [Bool.and_eq_true] at hcut
        refine .cut hblanked hcut.2 ⟨hcount, hfinish, target_on_of_mem_executed hb hframe⟩ hplaces rfl haxes ?_
        refine hgroup.imp ?_
        rintro k line ⟨q, hq, e, hline⟩
        have hpiece : c.IsPiece (· ≠ .z) (k + 1) q := ⟨hq.edit, hq.motion, hq.i, hq.j, hq.axes⟩
        rw [hline]
        exact hpiece.spellsPiece hfrom hframe hplaces e

omit [IsStrictOrderedRing α] in
/-- The lines of a step do not call. -/
theorem Block.FollowedBy.silent {lines : List String} {settings : Settings α} {machine : Machine α}
    {b : Block α} {group : List String} (h : b.FollowedBy maxStep places group)
    (hcalls : (Program.ofLines lines settings machine).CallsIdle)
    (hb : b ∈ (Program.ofLines lines settings machine).executed) :
    ∀ line ∈ group, (LineCodes.ofLine α line).call? = none := by
  intro line hline
  rcases h.codes line hline with hcodes | hcodes
  · rw [hcodes]
    cases hblanked : b.isBlanked with
    | true => exact hcalls.silent b hb hblanked
    | false =>
        rw [Program.flattenLine_of_not_isBlanked hblanked, ← (Program.line_or_copy_of_mem_executed hb).1.call]
        rw [Block.isBlanked, Bool.or_eq_false_iff] at hblanked
        simpa using hblanked.2
  · rw [hcodes]
    rfl

namespace Program

/-- The steps of a program before its end and after it, next to the steps that stand for them in a program
without calls. -/
structure FollowedSteps (maxStep : α) (places : ℕ) (p r : Program α)
    (before after front back : List (Block α)) : Prop where
  executed : p.executed = before ++ after
  running : ∀ b ∈ before, b.afterEnd = false
  ended : ∀ b ∈ after, b.afterEnd = true
  nonempty : before = [] → after = []
  straight : r.IsStraight
  lines : r.lines = front ++ back
  front : ∃ groups : List (List String), front.map (·.text) = groups.flatten ∧
    List.Forall₂ (Block.FollowedBy maxStep places) before groups
  back : ∃ groups : List (List String), back.map (·.text) = groups.flatten ∧
    List.Forall₂ (Block.FollowedBy maxStep places) after groups

variable {lines : List String} {settings : Settings α} {machine : Machine α}

/-- The steps of the program that follows a surface. -/
theorem exists_followedSteps (hlines : ∀ line ∈ lines, '\n' ∉ line.toList)
    (heditable : ∀ b ∈ (ofLines lines settings machine).lines, b.isEditable = true)
    (hcalls : (ofLines lines settings machine).CallsIdle) (hhypot : Scalar.hypot 0 0 = (0 : α))
    (surface : Surface α) :
    let p := ofLines lines settings machine
    let r := read ((Edit.follow surface).apply p settings machine).2 settings machine
    ∃ before after front back,
      FollowedSteps surface.cellSize settings.format.decimalPlaces p r before after front back := by
  intro p r
  obtain ⟨before, after, hexecuted, hrunning, hended, hnonempty⟩ := executed_eq_append lines settings machine
  obtain ⟨groups, htext, hgroups⟩ := exists_groups_following hlines settings machine surface settings.format
  rw [← apply_follow_snd] at htext
  have hfollowed : List.Forall₂ (Block.FollowedBy surface.cellSize settings.format.decimalPlaces)
      p.executed groups :=
    ((List.forall₂_and_left _ _).mpr ⟨fun b hb => hb, hgroups⟩).imp fun b group ⟨hb, hgroup⟩ =>
      followedBy_of_mem_executed heditable hhypot hb hgroup
  have hsilent : ∀ line ∈ groups.flatten, (LineCodes.ofLine α line).call? = none :=
    forall_mem_flatten_of_forall₂ (fun _ _ h hb => h.silent hcalls hb) hfollowed fun b hb => hb
  have hstraight : r.IsStraight := isStraight_ofLines (htext ▸ hsilent) machine
  have htexts : r.lines.map (·.text) = groups.flatten := by
    rw [← htext]
    exact texts_ofLines _ settings machine
  rw [hexecuted] at hfollowed
  obtain ⟨first, rest, rfl, hfirst, hrest⟩ := exists_append_of_forall₂ hfollowed
  rw [List.flatten_append] at htexts
  obtain ⟨front, back, hr, hfront, hback⟩ := List.map_eq_append_iff.mp htexts
  exact ⟨before, after, front, back, hexecuted, hrunning, hended, hnonempty, hstraight, hr,
    ⟨first, hfront, hfirst⟩, ⟨rest, hback, hrest⟩⟩

omit [IsStrictOrderedRing α] in
/-- Before the end of the program, only the last step may end it, and its line is not cut. -/
theorem EndsWhole.of_append {maxStep : α} (h : (ofLines lines settings machine).EndsWhole maxStep)
    {init after : List (Block α)} {last : Block α}
    (hexecuted : (ofLines lines settings machine).executed = (init ++ [last]) ++ after)
    (hrunning : ∀ b ∈ init ++ [last], b.afterEnd = false) :
    (∀ b ∈ init, (LineCodes.ofLine α (flattenLine b).text).endsProgram = false) ∧
      ((LineCodes.ofLine α (flattenLine last).text).endsProgram = true → last.isCut maxStep = false) := by
  have hmem : ∀ b ∈ init ++ [last], b ∈ (ofLines lines settings machine).executed := fun b hb =>
    hexecuted ▸ List.mem_append_left _ hb
  refine ⟨fun b hb => ?_, fun hend => (h last (hmem last (by simp)) (hrunning last (by simp)) hend).2⟩
  rw [← Bool.not_eq_true]
  intro hend
  have hpairs := pairwise_executed lines settings machine
  rw [hexecuted, List.pairwise_append, List.pairwise_append] at hpairs
  have hisEnd := (h b (hmem b (by simp [hb])) (hrunning b (by simp [hb])) hend).1
  have hafter := hpairs.1.2.2 b hb last (by simp) hisEnd
  rw [hrunning last (by simp)] at hafter
  exact absurd hafter (by simp)

omit [IsStrictOrderedRing α] in
/-- No hidden section starts on a line that may be edited. -/
theorem unmarked_of_isEditable (h : ∀ b ∈ (ofLines lines settings machine).lines, b.isEditable = true) :
    ∀ line ∈ lines, Markers.onLine settings.markers.hideStart line = false := by
  intro line hline
  rw [← texts_ofLines lines settings machine] at hline
  obtain ⟨b, hb, rfl⟩ := List.mem_map.mp hline
  rw [← Bool.not_eq_true]
  intro hmark
  have heditable := h b hb
  rw [Block.isEditable, hidden_of_onLine hb hmark] at heditable
  simp at heditable

namespace FollowedSteps

variable {lines' : List String} {places : ℕ} {maxStep : α} {before after front back : List (Block α)}
  (h : FollowedSteps maxStep places (ofLines lines settings machine) (ofLines lines' settings machine)
    before after front back)

include h

/-- Before the end of the program the tool is taken to the same places in the plane. -/
theorem path
    (heditable : ∀ b ∈ (ofLines lines settings machine).lines, b.isEditable = true)
    (hgrid : ∀ b ∈ (ofLines lines settings machine).lines, ∀ d : PathAxis, d ≠ .z → ∀ v ∈ b.axes.get d.axis,
      OnGrid places v)
    (hcalls : (ofLines lines settings machine).CallsIdle)
    (hwork : ∀ d : PathAxis, d ≠ .z → OnGrid places (machine.workPosition.on d)) :
    Agree places (· ≠ .z) (pass (travel machine) (Modal.initial, machine.workPosition) (before.map (·.text))).1
        (pass (travel machine) (Modal.initial, machine.workPosition) (front.map (·.text))).1 ∧
      (before.map (·.place.target.xy)).Sublist (front.map (·.place.target.xy)) := by
  obtain ⟨groups, hfront, hfollowed⟩ := h.front
  have hmem : ∀ b ∈ before, b ∈ (ofLines lines settings machine).executed := fun b hb =>
    h.executed ▸ List.mem_append_left _ hb
  have hsteps : List.Forall₂ (fun b group => b ∈ before ∧ b.FollowedBy maxStep places group) before groups :=
    (List.forall₂_and_left _ _).mpr ⟨fun b hb => hb, hfollowed⟩
  have hstep : ∀ (b : Block α) (group : List String) (s s' : Modal α × Position α),
      b ∈ before ∧ b.FollowedBy maxStep places group → Agree places (· ≠ .z) s s' →
      (travel machine s b.text).2 = b.moving →
        Agree places (· ≠ .z) (travel machine s b.text).1 (pass (travel machine) s' group).1 ∧
          ∃ b' ∈ (pass (travel machine) s' group).2, b'.place.target.xy = b.place.target.xy := by
    intro b group s s' ⟨hb, hgroup⟩ hs hmoving
    have hframe : (lineWords b.text : LineWords α).machineFrame = false := by
      rw [← (line_or_copy_of_mem_executed (hmem b hb)).1.machineFrame]
      exact machineFrame_executed heditable b (hmem b hb)
    refine hgroup.travel (fun hblanked => ?_) hframe
      (fun d hd => onGrid_executed (fun b hb => hgrid b hb d hd) (hmem b hb)) hs machine hmoving
    have hcall : b.call.isSome = true := by simpa [Block.isBlanked, h.running b hb] using hblanked
    exact ⟨hcalls.line b (hmem b hb) (h.running b hb) hcall, hcalls.comment b (hmem b hb) hblanked⟩
  have hstart : Agree places (· ≠ .z) (Modal.initial, machine.workPosition)
      ((Modal.initial : Modal α), machine.workPosition) := ⟨rfl, fun _ _ => rfl, hwork⟩
  obtain ⟨hagree, travelled, htravelled, hpath⟩ := exists_travel_groups
    (Q := fun b steps => ∃ b' ∈ steps, b'.place.target.xy = b.place.target.xy) hstep hsteps hstart
    (pass_travel_of_executed_eq_append h.executed).1
  have hmoving := (pass_travel_of_executed_eq_append (h.straight.executed_eq.trans h.lines)).1
  rw [← hfront] at hagree htravelled
  refine ⟨hagree, ?_⟩
  have htargets : front.map (·.place.target.xy) = travelled.flatten.map (·.place.target.xy) := by
    rw [← htravelled, hmoving, List.map_map]
    rfl
  rw [htargets]
  exact sublist_flatten_of_forall₂ hpath

omit [IsStrictOrderedRing α] in
/-- After the end of the program the tool stays where it is in the plane. -/
theorem stays
    (hcalls : (ofLines lines settings machine).CallsIdle) :
    ∀ b ∈ back, b.place.target.xy =
      (pass (travel machine) (Modal.initial, machine.workPosition) (front.map (·.text))).1.2.xy := by
  obtain ⟨groups, hback, hfollowed⟩ := h.back
  have hblanked : ∀ b ∈ after, b ∈ (ofLines lines settings machine).executed ∧ b.isBlanked = true := fun b hb =>
    ⟨h.executed ▸ List.mem_append_right _ hb, by rw [Block.isBlanked, h.ended b hb, Bool.true_or]⟩
  have hidle : ∀ line ∈ groups.flatten, IsIdle α line :=
    forall_mem_flatten_of_forall₂ (fun b _ hgroup hb => hgroup.idle hb.2 (hcalls.comment b hb.1 hb.2))
      hfollowed hblanked
  have hmoving := (pass_travel_of_executed_eq_append (h.straight.executed_eq.trans h.lines)).2
  set s := (pass (travel machine) (Modal.initial, machine.workPosition) (front.map (·.text))).1
  intro b hb
  have hmem : b.moving ∈ (pass (travel machine) s (back.map (·.text))).2 := hmoving ▸ List.mem_map_of_mem hb
  refine forall_mem_pass (I := fun t : Modal α × Position α => t.2.xy = s.2.xy)
    (P := fun b => b.place.target.xy = s.2.xy) rfl (fun t line hline ht => ?_) _ hmem
  have hplane := (hidle line (hback ▸ hline)).plane
  have hstays : (travel machine t line).1.2.xy = s.2.xy := by
    rw [← ht]
    exact congrArg₂ Point.mk (travel_on_of_eq_none machine t (hplane .x (by decide)))
      (travel_on_of_eq_none machine t (hplane .y (by decide)))
  exact ⟨hstays, hstays⟩

omit [IsStrictOrderedRing α] in
/-- Up to the last of them, the lines of the steps before the end do not end the program. -/
theorem ends
    (hends : (ofLines lines settings machine).EndsWhole maxStep) :
    ∀ b ∈ front.dropLast, (LineCodes.ofLine α b.text).endsProgram = false := by
  obtain ⟨groups, hfront, hfollowed⟩ := h.front
  rcases List.eq_nil_or_concat' before with rfl | ⟨init, last, rfl⟩
  · obtain rfl := List.forall₂_nil_left_iff.mp hfollowed
    rw [List.map_eq_nil_iff.mp hfront]
    simp
  obtain ⟨hinit, hlast⟩ := hends.of_append h.executed h.running
  obtain ⟨first, rest, rfl, hfirst, hrest⟩ := exists_append_of_forall₂ hfollowed
  obtain ⟨group, none, hgroup, hnone, rfl⟩ := List.forall₂_cons_left_iff.mp hrest
  obtain rfl := List.forall₂_nil_left_iff.mp hnone
  have hne := hgroup.ne_nil
  -- only the last group can end the program, and then it is a single line
  have hgroup : ∀ line ∈ group.dropLast, (LineCodes.ofLine α line).endsProgram = false := by
    cases hend : (LineCodes.ofLine α (flattenLine last).text).endsProgram with
    | false => exact fun line hline => hgroup.endsProgram hend line (List.dropLast_subset _ hline)
    | true =>
        have hlength := hgroup.length_of_isCut_eq_false (hlast hend)
        obtain ⟨line, rfl⟩ := List.length_eq_one_iff.mp hlength
        simp
  have hall : ∀ line ∈ (first ++ [group]).flatten.dropLast, (LineCodes.ofLine α line).endsProgram = false := by
    rw [List.flatten_append, List.flatten_singleton, List.dropLast_append_of_ne_nil hne]
    intro line hline
    rcases List.mem_append.mp hline with hline | hline
    · exact forall_mem_flatten_of_forall₂ (fun _ _ h hend => h.endsProgram hend) hfirst hinit line hline
    · exact hgroup line hline
  intro b hb
  refine hall b.text ?_
  rw [← hfront, ← List.map_dropLast]
  exact List.mem_map_of_mem hb

omit [IsStrictOrderedRing α] in
/-- The steps before the end are drawn, if no line is hidden. -/
theorem isDrawable
    (heditable : ∀ b ∈ (ofLines lines settings machine).lines, b.isEditable = true)
    (hcalls : (ofLines lines settings machine).CallsIdle)
    (hends : (ofLines lines settings machine).EndsWhole maxStep) (hmarkers : settings.markers = {}) :
    (∀ b ∈ before, b.isDrawable = true) ∧ ∀ b ∈ front, b.isDrawable = true := by
  have hempty : Markers.onLine settings.markers.hideStart "" = false := by
    rw [hmarkers]
    decide
  have hunmarked := unmarked_of_isEditable heditable
  have hmem : ∀ b ∈ before, b ∈ (ofLines lines settings machine).executed := fun b hb =>
    h.executed ▸ List.mem_append_left _ hb
  have hbefore : ∀ b ∈ before, b.isDrawable = true := by
    intro b hb
    rw [Block.isDrawable, machineFrame_executed heditable b (hmem b hb),
      hidden_executed hempty hunmarked machine b (hmem b hb), h.running b hb]
    rfl
  obtain ⟨groups, hfront, hfollowed⟩ := h.front
  have htexts : ∀ b ∈ front, b.text ∈ groups.flatten := fun b hb => hfront ▸ List.mem_map_of_mem hb
  have hvisible : ∀ line ∈ groups.flatten, Markers.onLine ({} : Markers).hideStart line = false := by
    refine forall_mem_flatten_of_forall₂ (fun _ _ h hb => h.unmarked hb) hfollowed fun b hb => ?_
    rw [← hmarkers]
    obtain ⟨-, -, htext, -⟩ := line_or_copy_of_mem_executed (hmem b hb)
    rw [htext, List.getD_eq_getElem?_getD]
    cases hline : lines[b.number]? with
    | none => exact hempty
    | some line => exact hunmarked line (List.mem_of_getElem? hline)
  have hframe : ∀ line ∈ groups.flatten, (lineWords line : LineWords α).machineFrame = false :=
    forall_mem_flatten_of_forall₂ (fun b _ h hb => h.machineFrame (hcalls.comment b hb)) hfollowed hmem
  refine ⟨hbefore, fun b hb => ?_⟩
  obtain ⟨hhidden, hafterEnd⟩ := visible_of_lines_eq_append h.lines
    (fun b hb => hmarkers ▸ hvisible b.text (htexts b hb)) (h.ends hends) b hb
  have hline : b ∈ (ofLines lines' settings machine).lines := h.lines ▸ List.mem_append_left _ hb
  rw [Block.isDrawable, (fromText_ofLines lines' settings machine b hline).machineFrame,
    hframe b.text (htexts b hb), hhidden, hafterEnd]
  rfl

omit [IsStrictOrderedRing α] in
/-- The last step that is drawn ends at the same place in the plane. -/
theorem last
    (hcalls : (ofLines lines settings machine).CallsIdle)
    (hdrawable : (∀ b ∈ before, b.isDrawable = true) ∧ ∀ b ∈ front, b.isDrawable = true)
    (hagree : Agree places (· ≠ .z)
      (pass (travel machine) (Modal.initial, machine.workPosition) (before.map (·.text))).1
      (pass (travel machine) (Modal.initial, machine.workPosition) (front.map (·.text))).1) :
    ((ofLines lines' settings machine).executed.filter Block.isDrawable).getLast?.map (·.place.target.xy) =
      ((ofLines lines settings machine).executed.filter Block.isDrawable).getLast?.map (·.place.target.xy) := by
  have hold := (pass_travel_of_executed_eq_append h.executed).1
  have hnew := (pass_travel_of_executed_eq_append (h.straight.executed_eq.trans h.lines)).1
  have hstays := h.stays hcalls
  obtain ⟨groups, hfront, hfollowed⟩ := h.front
  obtain ⟨groups', hback, hfollowed'⟩ := h.back
  rw [h.straight.executed_eq, h.lines, h.executed]
  rcases List.eq_nil_or_concat' before with rfl | ⟨init, b, rfl⟩
  · obtain rfl := h.nonempty rfl
    obtain rfl := List.forall₂_nil_left_iff.mp hfollowed
    obtain rfl := List.forall₂_nil_left_iff.mp hfollowed'
    rw [List.map_eq_nil_iff.mp hfront, List.map_eq_nil_iff.mp hback]
  · obtain ⟨first, rest, rfl, -, hrest⟩ := exists_append_of_forall₂ hfollowed
    obtain ⟨group, none, hgroup, hnone, rfl⟩ := List.forall₂_cons_left_iff.mp hrest
    obtain rfl := List.forall₂_nil_left_iff.mp hnone
    rcases List.eq_nil_or_concat' front with rfl | ⟨init', b', rfl⟩
    · rw [List.map_nil, eq_comm, List.flatten_append, List.append_eq_nil_iff, List.flatten_singleton] at hfront
      exact absurd hfront.2 hgroup.ne_nil
    have hxy := hagree.xy
    rw [target_of_pass_travel hold, target_of_pass_travel hnew] at hxy
    rw [target_of_pass_travel hnew] at hstays
    rw [List.append_assoc, List.append_assoc, List.singleton_append, List.singleton_append,
      map_getLast?_filter (hdrawable.2 b' (by simp)) fun y hy _ => hstays y hy,
      map_getLast?_filter (hdrawable.1 b (by simp)) fun y hy hdrawn => ?_, hxy]
    simp [Block.isDrawable, h.ended y hy] at hdrawn

end FollowedSteps

/-- The program that follows a surface takes the tool, in the plane, to all the places to which the steps that
are drawn took it, in the same order. If the program ends on a line of its own, the last of them is also the
last place to which a step of the new program is drawn. -/
theorem path_followed (text : String) (settings : Settings α) (machine : Machine α) (surface : Surface α)
    (heditable : ∀ b ∈ (read text settings machine).lines, b.isEditable = true)
    (hgrid : ∀ b ∈ (read text settings machine).lines, ∀ d : PathAxis, d ≠ .z → ∀ v ∈ b.axes.get d.axis,
      OnGrid settings.format.decimalPlaces v)
    (hcalls : (read text settings machine).CallsIdle) (hhypot : Scalar.hypot 0 0 = (0 : α))
    (hwork : ∀ d : PathAxis, d ≠ .z → OnGrid settings.format.decimalPlaces (machine.workPosition.on d)) :
    let p := read text settings machine
    let r := read ((Edit.follow surface).apply p settings machine).2 settings machine
    ((p.executed.filter Block.isDrawable).map (·.place.target.xy)).Sublist
        (r.executed.map (·.place.target.xy)) ∧
      (p.EndsWhole surface.cellSize → settings.markers = {} →
        (r.executed.filter Block.isDrawable).getLast?.map (·.place.target.xy) =
          (p.executed.filter Block.isDrawable).getLast?.map (·.place.target.xy)) := by
  intro p r
  obtain ⟨before, after, front, back, hsteps⟩ : ∃ before after front back,
      FollowedSteps surface.cellSize settings.format.decimalPlaces p r before after front back :=
    exists_followedSteps (fun _ => Text.not_mem_of_mem_lines) heditable hcalls hhypot surface
  obtain ⟨hagree, hpath⟩ := hsteps.path heditable hgrid hcalls hwork
  refine ⟨?_, fun hends hmarkers =>
    hsteps.last hcalls (hsteps.isDrawable heditable hcalls hends hmarkers) hagree⟩
  have hdrawn : (p.executed.filter Block.isDrawable).Sublist before := by
    have hnone : after.filter Block.isDrawable = [] := by
      rw [List.filter_eq_nil_iff]
      intro b hb
      simp [Block.isDrawable, hsteps.ended b hb]
    rw [hsteps.executed, List.filter_append, hnone, List.append_nil]
    exact List.filter_sublist
  rw [hsteps.straight.executed_eq, hsteps.lines, List.map_append]
  exact (hdrawn.map _).trans (hpath.trans (List.sublist_append_left _ _))

/-- Displacements in a subroutine that runs twice, and a move back in absolute coordinates. -/
theorem path_followed_subroutine :
    let _ := PlaneFunctions.axial
    let settings : Settings ℚ := .default
    let machine : Machine ℚ := .default
    let surface := (⟨⟨0, 0⟩, ⟨4, 4⟩, 3, 3, .replicate 9 0⟩ : HeightMap ℚ).surface
    let p := read "G91 G1 X1 F100\nM98 P1 L2\nG90 G1 X0 Y2\nM30\nO1\nX4\nM99\n" settings machine
    let r := read ((Edit.follow surface).apply p settings machine).2 settings machine
    ((∀ b ∈ p.lines, b.isEditable = true) ∧ p.CallsIdle ∧ p.EndsWhole surface.cellSize) ∧
    (p.executed.filter Block.isDrawable).map (·.place.target.xy) =
      [⟨1, 0⟩, ⟨1, 0⟩, ⟨5, 0⟩, ⟨9, 0⟩, ⟨0, 2⟩, ⟨0, 2⟩] ∧
    r.executed.length = 16 ∧
    ((p.executed.filter Block.isDrawable).map (·.place.target.xy)).Sublist
        (r.executed.map (·.place.target.xy)) ∧
      (r.executed.filter Block.isDrawable).getLast?.map (·.place.target.xy) =
        (p.executed.filter Block.isDrawable).getLast?.map (·.place.target.xy) := by
  intro _ settings machine surface p r
  have hlines : ∀ b ∈ p.lines, b.isEditable = true := by decide +kernel
  have hgrid : ∀ b ∈ p.lines, ∀ d : PathAxis, d ≠ .z → ∀ v ∈ b.axes.get d.axis,
      OnGrid settings.format.decimalPlaces v := by
    intro b hb d hd
    cases d
    case x => exact (by decide +kernel : ∀ b ∈ p.lines, ∀ v ∈ b.axes.get .x, OnGrid 3 v) b hb
    case y => exact (by decide +kernel : ∀ b ∈ p.lines, ∀ v ∈ b.axes.get .y, OnGrid 3 v) b hb
    case z => exact absurd rfl hd
  have hcalls : p.CallsIdle := by
    constructor
    case line =>
      simp only [isIdle_iff]
      decide +kernel
    case comment =>
      simp only [isIdle_iff]
      decide +kernel
    case silent => decide +kernel
  have hends : p.EndsWhole surface.cellSize := by
    unfold EndsWhole
    decide +kernel
  have hwork : ∀ d : PathAxis, d ≠ .z → OnGrid settings.format.decimalPlaces (machine.workPosition.on d) := by
    rintro (_ | _ | _) hd
    exacts [by decide +kernel, by decide +kernel, absurd rfl hd]
  have hhypot : Scalar.hypot 0 0 = (0 : ℚ) := by decide +kernel
  obtain ⟨hpath, hlast⟩ := path_followed _ settings machine surface hlines hgrid hcalls hhypot hwork
  exact ⟨⟨hlines, hcalls, hends⟩, by decide +kernel, by decide +kernel, hpath, hlast hends rfl⟩

end Program

end PartProgram
