import PartProgram.Proofs.Edit.Trailing
import PartProgram.Proofs.Edit.Straight
import PartProgram.Proofs.Edit.Reslotting

/-! # The shift that a rapid move carries

A relative program is shifted as a whole by one of its rapid moves, or by a move of its own. Everything that cuts
after that move is cut in the shifted place; what is cut before it stays.
-/

namespace PartProgram

variable {α : Type} [Field α] [LinearOrder α] [IsStrictOrderedRing α] [FloorRing α] [PlaneFunctions α]

/-! ### The move that is added -/

section

variable {comment : String} (hcomment : IsSilent comment) (slot : OffsetSlot) (feed spindle : α)

include hcomment

theorem isEditable_offsetMove : (offsetMove slot comment feed spindle).isEditable = true := by
  obtain ⟨-, -, -, -, -, hframe, -, -, hhidden, -⟩ := offsetMove_modes hcomment slot feed spindle
  obtain ⟨-, -, hfooter⟩ := offsetMove_xy hcomment slot feed spindle
  rw [Block.isEditable, hframe, hhidden, hfooter]
  rfl

theorem takesShift_offsetMove : (offsetMove slot comment feed spindle).takesShift = true := by
  obtain ⟨hmotion, habsolute, -, -, -, -, -, -, -, hafter, -⟩ := offsetMove_modes hcomment slot feed spindle
  obtain ⟨hx, -⟩ := offsetMove_xy hcomment slot feed spindle
  exact Block.takesShift_iff.mpr ⟨habsolute, hafter, hmotion, by rw [Block.hasXY, hx]; rfl⟩

theorem targetFrom_offsetMove (machine : Machine α) (p : Position α) :
    (offsetMove slot comment feed spindle).targetFrom machine p = p := by
  obtain ⟨-, habsolute, -, -, hz, -⟩ := offsetMove_modes hcomment slot feed spindle
  obtain ⟨hx, hy, -⟩ := offsetMove_xy hcomment slot feed spindle
  rw [Block.x] at hx
  rw [Block.y] at hy
  rw [Block.z] at hz
  simp only [Block.targetFrom, Block.axisTarget, hx, hy, hz, habsolute, Bool.false_eq_true, if_false]
  rw [add_zero, add_zero]

/-- The move that is added takes over the shift, unless a line before has. -/
theorem Tool.Trails.offsetMove {delta : Point α} {before : List (Block α)} {t : Tool α} {state : Pending × Tool α}
    (h : Trails delta before t state) (machine : Machine α) :
    Trails delta (before ++ [offsetMove slot comment feed spindle]) t
      (shiftedStep machine delta state (offsetMove slot comment feed spindle)).1 := by
  have htakes := takesShift_offsetMove hcomment slot feed spindle
  have htarget := targetFrom_offsetMove hcomment slot feed spindle machine
  obtain ⟨-, habsolute, -⟩ := offsetMove_modes hcomment slot feed spindle
  obtain ⟨pending, t'⟩ := state
  obtain ⟨rfl, hposition⟩ := h
  generalize PartProgram.offsetMove slot comment feed spindle = move at htakes htarget habsolute
  have hreleased : (before ++ [move]).any Block.takesShift = true := by simp [htakes]
  have hreach : ∀ pending, (shiftedStep machine delta (pending, t') move).1.2.position =
      (move.shifted delta pending).2.targetFrom machine t'.position := fun _ => Tool.step_position ..
  cases hpending : before.any Block.takesShift with
  | true =>
      have hidle := Block.shifted_of_idle delta (fun _ => habsolute) (fun _ : move.takesShift = true => rfl)
      refine ⟨?_, ?_⟩
      · rw [hreleased]
        exact congrArg Prod.fst hidle
      · rw [hreach, hidle, hreleased, htarget, hposition, hpending]
  | false =>
      have hladen := Block.shifted_of_takesShift delta htakes
      refine ⟨?_, ?_⟩
      · rw [hreleased]
        exact congrArg Prod.fst hladen
      · rw [hpending, carried, if_neg Bool.false_ne_true, PlaneMap.position_back_zero] at hposition
        rw [hreach, Bool.not_false, hladen, hreleased, Block.targetFrom_laden delta habsolute, htarget, hposition]
        rfl

omit [IsStrictOrderedRing α] hcomment in
theorem Tool.motion_shiftedStep (machine : Machine α) (delta : Point α) (state : Pending × Tool α) (b : Block α) :
    (shiftedStep machine delta state b).2.motion = b.motion := by
  have hchanges := Block.changesTo_shifted delta state.1 b
  have hstep := state.2.eq_of_step machine (b.shifted delta state.1).2
  rw [show (shiftedStep machine delta state b).2 = _ from hstep]
  exact (hchanges.motion.eq_of_not_isArc False.elim).symm

/-- The move that is added begins no figure, and ends none that has been begun. -/
theorem Tool.FramedBy.offsetMove {delta : Point α} {t : Tool α} {state : Pending × Tool α}
    (h : FramedBy (.back delta) t state.2) (hlifted : t.IsLifted) (machine : Machine α) :
    FramedBy (.back delta) t (shiftedStep machine delta state (offsetMove slot comment feed spindle)).1.2 := by
  obtain ⟨hmotion, -, -, -, hz, hframe, -, -, hhidden, hafter, -⟩ := offsetMove_modes hcomment slot feed spindle
  have hchanges := Block.changesTo_shifted delta state.1 (PartProgram.offsetMove slot comment feed spindle)
  generalize PartProgram.offsetMove slot comment feed spindle = move at *
  have hrapid : (move.shifted delta state.1).2.motion.isEngaged = false := by
    rw [← hchanges.motion.eq_of_not_isArc False.elim, hmotion]
    rfl
  have hdrawable : (move.shifted delta state.1).2.isDrawable = true := by
    rw [Block.isDrawable, hchanges.edit.machineFrame, hchanges.edit.hidden, hchanges.edit.afterEnd, hframe, hhidden,
      hafter]
    rfl
  have hrun : (shiftedStep machine delta state move).1.2 = (state.2.step machine (move.shifted delta state.1).2).1 := rfl
  rw [hrun]
  refine ⟨fun hstart => ?_, ?_, ?_⟩
  · rw [Tool.penDown_step _ _ hdrawable, hrapid, hlifted hstart]
  · rw [Tool.startPending_step _ _ (fun _ => by rw [hrapid, Bool.false_and]), hrapid, h.startPending]
    simp
  · rw [Tool.extent_step_rapid _ _ hrapid (hchanges.z hz), h.extent]

end

/-! ### A run with the move -/

section

variable {front back after : List (Block α)} {machine : Machine α} (delta : Point α)
  (hplaced : (pass (Tool.step machine) (.atStart machine) (front ++ back)).2 = front ++ back)
  (hmarked : List.Forall₂ Block.MarkedAs back after)
  (hrelative : ∀ b ∈ front ++ back, b.hasCoordinates = true → b.absolute = false)
  {comment : String} (hcomment : IsSilent comment) (slot : OffsetSlot) (feed spindle : α)

include hplaced hmarked hrelative hcomment

/-- The lines around the move that has been added. Those after it are shifted. -/
theorem Tool.carriedTo_of_move {n : ℕ} {b b' : Block α} (hb : (front ++ back)[n]? = some b)
    (hb' : ((pass (shiftedStep machine delta) (⟨true, true⟩, .atStart machine)
      (front ++ offsetMove slot comment feed spindle :: after)).2.eraseIdx front.length)[n]? = some b') :
    b.CarriedTo (carried delta (((front ++ back).take n).any Block.takesShift || decide (front.length ≤ n)))
      (carried delta (((front ++ back).take (n + 1)).any Block.takesShift || decide (front.length ≤ n))) b' := by
  rw [pass_append] at hplaced
  obtain ⟨hfront, hback⟩ := List.append_inj hplaced (length_pass _ _ _)
  have hsame : List.Forall₂ Block.MarkedAs front front := List.forall₂_same.mpr fun b _ => .inl rfl
  obtain ⟨hslot, hbefore⟩ := (Trails.atStart delta machine).pass hfront hsame fun b hb =>
    hrelative b (List.mem_append_left back hb)
  obtain ⟨-, hlater⟩ := (hslot.offsetMove hcomment slot feed spindle machine).pass hback hmarked fun b hb =>
    hrelative b (List.mem_append_right front hb)
  have hlength : (pass (shiftedStep machine delta) (⟨true, true⟩, .atStart machine) front).2.length = front.length :=
    length_pass _ _ _
  rw [pass_append, pass_cons, List.eraseIdx_append_of_length_le hlength.le, hlength, Nat.sub_self,
    List.eraseIdx_cons_zero] at hb'
  by_cases hn : n < front.length
  · rw [List.getElem?_append_left hn] at hb
    rw [List.getElem?_append_left (hlength.symm ▸ hn)] at hb'
    have hstep := hbefore n b b' hb hb'
    rw [List.take_append_of_le_length hn.le, List.take_append_of_le_length hn, decide_eq_false (by omega)]
    simpa using hstep
  · rw [List.getElem?_append_right (by omega)] at hb
    rw [List.getElem?_append_right (by omega), hlength] at hb'
    have hstep := hlater _ b b' hb hb'
    have hmove := takesShift_offsetMove hcomment slot feed spindle
    rw [decide_eq_true (by omega)]
    simpa [hmove] using hstep

/-- If the shift has been carried before every cut, and the pen is up at the slot, the extent is shifted. -/
theorem Tool.framedBy_of_move (hlifted : (pass (step machine) (.atStart machine) front).1.IsLifted)
    (hcut : ∀ (n : ℕ) (b : Block α), (front ++ back)[n]? = some b → b.isBounded = true →
      (((front ++ back).take n).any Block.takesShift || decide (front.length ≤ n)) = true) :
    FramedBy (.back delta) (pass (step machine) (.atStart machine) (front ++ back)).1
      (pass (shiftedStep machine delta) (⟨true, true⟩, .atStart machine)
        (front ++ offsetMove slot comment feed spindle :: after)).1.2 := by
  rw [pass_append] at hplaced
  obtain ⟨hfront, hback⟩ := List.append_inj hplaced (length_pass _ _ _)
  have hsame : List.Forall₂ Block.MarkedAs front front := List.forall₂_same.mpr fun b _ => .inl rfl
  have hrelative_front := fun b hb => hrelative b (List.mem_append_left back hb)
  obtain ⟨hslot, -⟩ := (Trails.atStart delta machine).pass hfront hsame hrelative_front
  have hframed := (Trails.atStart delta machine).framedBy_pass hfront hsame hrelative_front ⟨fun _ => rfl, rfl, rfl⟩
    (by
      intro n b hb hbounded
      obtain ⟨hn, -⟩ := List.getElem?_eq_some_iff.mp hb
      have hreleased := hcut n b (by rw [List.getElem?_append_left hn, hb]) hbounded
      rw [List.take_append_of_le_length hn.le, decide_eq_false (by omega), Bool.or_false] at hreleased
      exact hreleased)
  rw [pass_append, pass_append, pass_cons]
  refine (hslot.offsetMove hcomment slot feed spindle machine).framedBy_pass hback hmarked
    (fun b hb => hrelative b (List.mem_append_right front hb))
    (hframed.offsetMove hcomment slot feed spindle hlifted machine) fun n b _ _ => ?_
  have hmove := takesShift_offsetMove hcomment slot feed spindle
  simp [hmove]

end

/-! ### The whole program -/

namespace Program

variable {p : Program α}

omit [IsStrictOrderedRing α] in
theorem lines_shiftLines_of_isEditable (h : ∀ b ∈ p.lines, b.isEditable = true) (delta : Point α) :
    (p.shiftLines delta).lines = (pass (fun pending b => b.shifted delta pending) ⟨true, true⟩ p.lines).2 := by
  rw [lines_shiftLines]
  refine congrArg Prod.snd (pass_congr (fun pending b hb => ?_) _)
  rw [Block.shiftLine, if_pos (h b hb)]

/-- A shifted program without copies runs its shifted lines. -/
theorem executed_shift (hstraight : p.IsStraight) {comment : String} (hcomment : IsSilent comment)
    (heditable : ∀ b ∈ p.lines, b.isEditable = true) (delta : Point α) (machine : Machine α) :
    let q := (p.shift delta comment).place machine
    let run := pass (Tool.shiftedStep machine delta) (⟨true, true⟩, .atStart machine) (p.withOffsetMove comment).lines
    q.executed = run.2 ∧ q.extent = run.1.2.extent := by
  intro q run
  have hmoved : ∀ b ∈ (p.withOffsetMove comment).lines, b.isEditable = true :=
    (p.withMove_lines comment).forall_mem (isEditable_offsetMove hcomment) (fun b _ hb => hb) heditable
  have hshifted : (p.shift delta comment).IsStraight := (hstraight.withOffsetMove comment).shiftLines delta
  obtain ⟨hlast, hresults⟩ := Tool.pass_shiftedStep machine delta ⟨true, true⟩ (.atStart machine)
    (p.withOffsetMove comment).lines
  rw [← lines_shiftLines_of_isEditable hmoved] at hlast hresults
  refine ⟨?_, ?_⟩
  · rw [(hshifted.place machine).executed_eq, hshifted.lines_place]
    exact hresults.symm
  · rw [show q = _ from hshifted.place_eq machine]
    exact congrArg Tool.extent hlast.symm

/-- The steps of a shifted program without the move that has been added. -/
def stepsOfLines (p q : Program α) : List (Block α) :=
  (offsetSlot p.lines).elim q.executed fun slot => q.executed.eraseIdx slot.line

/-- What a shift by a move makes of a relative program: every step starts and ends where the shift has been carried
to, and if it has been carried before every cut, so has the extent. -/
structure CarriesShift (p q : Program α) (delta : Point α) (machine : Machine α) : Prop where
  length : (p.stepsOfLines q).length = p.lines.length
  move : ∀ slot, offsetSlot p.lines = some slot → ∃ b, q.executed[slot.line]? = some b ∧ b.motion = .rapid
  steps : ∀ (n : ℕ) (b b' : Block α), p.lines[n]? = some b → (p.stepsOfLines q)[n]? = some b' →
    b.CarriedTo (carried delta (carriedBefore p.lines n)) (carried delta (carriedBefore p.lines n || b.takesShift)) b'
  extent : (∀ (n : ℕ) (b : Block α), p.lines[n]? = some b → b.isBounded = true → carriedBefore p.lines n = true) →
    q.extent = (PlaneMap.back delta).extent (pass (Tool.step machine) (.atStart machine) p.lines).1.extent

section

variable (hstraight : p.IsStraight) {comment : String} (hcomment : IsSilent comment)
  (heditable : ∀ b ∈ p.lines, b.isEditable = true)
  (hrelative : ∀ b ∈ p.lines, b.hasCoordinates = true → b.absolute = false) {machine : Machine α}
  (hplaced : (pass (Tool.step machine) (.atStart machine) p.lines).2 = p.lines) (delta : Point α)

include hstraight hcomment heditable hrelative hplaced

/-- Where no move is needed, the lines themselves carry the shift. -/
theorem carriesShift_of_slot_eq_none (hslot : offsetSlot p.lines = none) :
    p.CarriesShift ((p.shift delta comment).place machine) delta machine := by
  obtain ⟨hexecuted, hextent⟩ := executed_shift hstraight hcomment heditable delta machine
  have hmoved : p.withOffsetMove comment = p := by simp [withOffsetMove, hslot]
  have hmarked : List.Forall₂ Block.MarkedAs p.lines p.lines := List.forall₂_same.mpr fun b _ => .inl rfl
  have hbefore : ∀ n, carriedBefore p.lines n = (p.lines.take n).any Block.takesShift := by
    intro n
    simp [carriedBefore, hslot]
  rw [hmoved] at hexecuted hextent
  have hsteps : p.stepsOfLines ((p.shift delta comment).place machine) =
      (pass (Tool.shiftedStep machine delta) (⟨true, true⟩, .atStart machine) p.lines).2 := by
    rw [stepsOfLines, hslot]
    exact hexecuted
  have hstart := Tool.Trails.atStart delta machine
  refine ⟨?_, by simp [hslot], ?_, ?_⟩
  · rw [hsteps, length_pass]
  · intro n b b' hb hb'
    rw [hsteps] at hb'
    have hstep := (hstart.pass hplaced hmarked hrelative).2 n b b' hb hb'
    rw [List.nil_append, List.nil_append, List.take_succ_of_getElem? hb, List.any_append] at hstep
    rw [hbefore]
    simpa using hstep
  · intro hcut
    rw [hextent]
    refine (hstart.framedBy_pass hplaced hmarked hrelative ⟨fun _ => rfl, rfl, rfl⟩ fun n b hb hbounded => ?_).extent
    rw [List.nil_append, ← hbefore]
    exact hcut n b hb hbounded

/-- Where a move is added, it carries the shift to the lines after it. -/
theorem carriesShift_of_slot (hcontains : p.containsRelative = true) {slot : OffsetSlot}
    (hslot : offsetSlot p.lines = some slot) :
    p.CarriesShift ((p.shift delta comment).place machine) delta machine := by
  obtain ⟨hexecuted, hextent⟩ := executed_shift hstraight hcomment heditable delta machine
  obtain ⟨feed, spindle, after, hafter, hmoved⟩ := exists_lines_withOffsetMove hcontains hslot comment
  have hlifted := isLifted_at_slot heditable hrelative hslot machine
  have hline : (p.lines.take slot.line).length = slot.line := List.length_take_of_le (offsetSlot_take hslot).1
  have hsplit : p.lines = p.lines.take slot.line ++ p.lines.drop slot.line := (List.take_append_drop _ _).symm
  have hbefore : ∀ n, carriedBefore p.lines n =
      ((p.lines.take n).any Block.takesShift || decide (slot.line ≤ n)) := by
    intro n
    rw [carriedBefore, hslot]
    rfl
  have hsteps : p.stepsOfLines ((p.shift delta comment).place machine) =
      ((p.shift delta comment).place machine).executed.eraseIdx slot.line := by
    rw [stepsOfLines, hslot]
    rfl
  rw [hmoved] at hexecuted hextent
  rw [hexecuted] at hsteps
  generalize p.lines.take slot.line = front at *
  generalize p.lines.drop slot.line = back at *
  rw [hsplit] at hplaced hrelative hbefore
  rw [← hline] at hsteps hbefore
  refine ⟨?_, ?_, ?_, ?_⟩
  · rw [hsteps, List.length_eraseIdx, length_pass, hsplit]
    simp [hafter.length_eq]
  · intro slot' hslot'
    obtain rfl : slot = slot' := Option.some_inj.mp (hslot.symm.trans hslot')
    rw [hexecuted, ← hline, pass_append, pass_cons, List.getElem?_append_right (length_pass _ _ _).le, length_pass,
      Nat.sub_self, List.getElem?_cons_zero]
    refine ⟨_, rfl, ?_⟩
    rw [Tool.motion_shiftedStep]
    exact (offsetMove_modes hcomment slot feed spindle).1
  · intro n b b' hb hb'
    rw [hsplit] at hb
    rw [hsteps] at hb'
    have hstep := Tool.carriedTo_of_move delta hplaced hafter hrelative hcomment slot feed spindle hb hb'
    rw [hsplit, hbefore]
    rw [List.take_succ_of_getElem? hb, List.any_append, Bool.or_right_comm] at hstep
    simpa using hstep
  · intro hcut
    rw [hextent, hsplit]
    refine (Tool.framedBy_of_move delta hplaced hafter hrelative hcomment slot feed spindle hlifted
      fun n b hb hbounded => ?_).extent
    have hreleased := hcut n b (by rw [hsplit, hb]) hbounded
    rwa [hsplit, hbefore] at hreleased

/-- A shift takes every step of a relative program to where the shift has been carried to. -/
theorem carriesShift_shift (hcontains : p.containsRelative = true) :
    p.CarriesShift ((p.shift delta comment).place machine) delta machine := by
  cases hslot : offsetSlot p.lines with
  | none => exact carriesShift_of_slot_eq_none hstraight hcomment heditable hrelative hplaced delta hslot
  | some slot => exact carriesShift_of_slot hstraight hcomment heditable hrelative hplaced delta hcontains hslot

end

/-- A shift of a relative program to an anchor. A cut is shifted if the tool has been lifted, or moved rapidly in the
plane, before it, and it stays where it is if not; where the tool is never lifted, everything is shifted from the first
coordinates on. If every cut is shifted, the anchor comes to lie where it has been asked to. -/
theorem anchors_apply_relative (text : String) (settings : Settings α) (machine : Machine α) (anchor : Anchor)
    (extra : Point α) :
    let p := read text settings machine
    let q := (Edit.apply (.offset anchor extra) p settings machine).1
    let delta := anchor.point p.extent + extra
    IsSilent settings.markers.offsetMoveComment → (∀ b ∈ p.lines, b.call = none) →
      (∀ b ∈ p.lines, b.isEditable = true) → (∀ b ∈ p.lines, b.hasCoordinates = true → b.absolute = false) →
      p.extent.isEmpty = false →
        List.Forall₂ Block.EditOf p.executed (p.stepsOfLines q) ∧
        (∀ slot, offsetSlot p.lines = some slot → ∃ b, q.executed[slot.line]? = some b ∧ b.motion = .rapid) ∧
        (∀ n b b', p.executed[n]? = some b → (p.stepsOfLines q)[n]? = some b' → b.isDrawable = true →
          b.motion.isEngaged = true →
          let d := if releasesShift p.lines n then delta else ⟨0, 0⟩
          b'.place.origin.xy = b.place.origin.xy - d ∧ b'.place.target.xy = b.place.target.xy - d ∧
          b'.place.target.z = b.place.target.z ∧
          b'.place.arc = b.place.arc.map fun a => { a with center := a.center - d }) ∧
        ((p.lines.any Block.isRetract = true →
            ∀ n b, p.executed[n]? = some b → b.isBounded = true → releasesShift p.lines n = true) →
          q.extent.x = p.extent.x.map (fun r => ⟨r.lo - delta.x, r.hi - delta.x⟩) ∧
          q.extent.y = p.extent.y.map (fun r => ⟨r.lo - delta.y, r.hi - delta.y⟩) ∧
          anchor.point q.extent = ⟨-extra.x, -extra.y⟩) := by
  intro p q delta hcomment hcalls heditable hrelative hextent
  have hp : p.Settled machine := settled_ofLines heditable
  have hstraight : p.IsStraight := isStraight_ofLines (codes_of_call_eq_none hcalls) machine
  have hexecuted : p.executed = p.lines := hstraight.executed_eq
  have hplaced : (pass (Tool.step machine) (.atStart machine) p.lines).2 = p.lines := by
    rw [← hexecuted, hp.placed]
  have hcut : ∃ b ∈ p.executed, b.isBounded = true := exists_isBounded_of_extent hextent
  have hcontains : p.containsRelative = true := by
    obtain ⟨b, hb, hbounded⟩ := hcut
    rw [Block.isBounded, Bool.and_eq_true] at hbounded
    refine containsRelative_of_mem_executed hb ?_
    exact hrelative b (hexecuted ▸ hb) (Block.hasCoordinates_of_hasXY hbounded.2)
  have hnonempty : p.isEmpty = false := by
    obtain ⟨b, hb, -⟩ := hcut
    rw [executed] at hb
    cases hentries : p.entries with
    | nil => simp [hentries] at hb
    | cons e es => simp [isEmpty, hentries]
  have hq : q = (p.shift delta settings.markers.offsetMoveComment).place machine := by
    have hchange : (Edit.offset anchor extra).change p settings = p.shift delta settings.markers.offsetMoveComment := rfl
    rw [show q = _ from congrArg Prod.fst (Edit.apply_eq (by simp) hnonempty settings machine), hchange]
  have hcarries : p.CarriesShift q delta machine := by
    rw [hq]
    exact carriesShift_shift hstraight hcomment heditable hrelative hplaced delta hcontains
  have hended : p.lines.Pairwise fun b b' => b.afterEnd = true → b'.afterEnd = true := by
    rw [← hexecuted]
    exact pairwise_afterEnd _ settings machine
  have hreleases : ∀ n b, p.lines[n]? = some b → b.isDrawable = true → b.motion.isEngaged = true →
      carriedBefore p.lines n = releasesShift p.lines n := by
    intro n b hb hdrawable hengaged
    have hafter : b.afterEnd = false := by
      simp only [Block.isDrawable, Bool.not_eq_true', Bool.or_eq_false_iff] at hdrawable
      exact hdrawable.2
    exact carriedBefore_eq_releasesShift hrelative heditable hended hb hafter hengaged
  rw [hexecuted]
  refine ⟨?_, hcarries.move, ?_, ?_⟩
  · exact forall₂_of_getElem? hcarries.length.symm fun n b b' hb hb' => (hcarries.steps n b b' hb hb').edit
  · intro n b b' hb hb' hdrawable hengaged d
    have hstep := hcarries.steps n b b' hb hb'
    have htakes : b.takesShift = false := by
      cases htakes : b.takesShift with
      | false => rfl
      | true => rw [Block.isEngaged_of_takesShift htakes] at hengaged; simp at hengaged
    have hd : carried delta (carriedBefore p.lines n) = d := by
      rw [hreleases n b hb hdrawable hengaged]
      rfl
    rw [htakes, Bool.or_false, hd] at hstep
    refine ⟨?_, ?_, ?_, hstep.arc⟩
    · rw [hstep.origin, PlaneMap.position_xy, PlaneMap.point_back]
    · rw [hstep.target, PlaneMap.position_xy, PlaneMap.point_back]
    · rw [hstep.target]
      rfl
  · intro hreleased
    have hbox : q.extent = (PlaneMap.back delta).extent p.extent := by
      rw [hcarries.extent fun n b hb hbounded => ?_, ← hp.extent, hexecuted]
      have hcuts := hbounded
      simp only [Block.isBounded, Bool.and_eq_true] at hcuts
      rw [hreleases n b hb hcuts.1.1 hcuts.1.2]
      cases hretract : p.lines.any Block.isRetract with
      | true => exact hreleased hretract n b hb hbounded
      | false => exact releasesShift_of_not_isRetract hretract hb hcuts.2
    rw [hbox]
    exact anchor.extent_back extra hextent

/-- The tool is lifted before it cuts, and the move that is added follows at once. -/
theorem anchors_lifted :
    let _ := PlaneFunctions.axial
    let machine : Machine ℚ := .default
    let settings : Settings ℚ := .default
    let text := "G91\nG0 Z5\nG1 X10 Y4 F100\nG2 X4 I2\n"
    let p := read text settings machine
    let q := (Edit.apply (.offset .bottomLeft ⟨3, 2⟩) p settings machine).1
    (IsSilent settings.markers.offsetMoveComment ∧ (∀ b ∈ p.lines, b.call = none) ∧
      (∀ b ∈ p.lines, b.isEditable = true) ∧ (∀ b ∈ p.lines, b.hasCoordinates = true → b.absolute = false) ∧
      p.extent.isEmpty = false ∧ offsetSlot p.lines = some ⟨2, false⟩ ∧
      ∀ n b, p.executed[n]? = some b → b.isBounded = true → releasesShift p.lines n = true) ∧
    ∃ move b b' : Block ℚ, q.executed[2]? = some move ∧ move.motion = .rapid ∧ p.executed[3]? = some b ∧
      (p.stepsOfLines q)[3]? = some b' ∧ b.isDrawable = true ∧ b.motion.isEngaged = true ∧
      b.place.target.xy = ⟨14, 4⟩ ∧ b.place.arc.isSome = true ∧ b'.place.target.xy = ⟨14, 4⟩ - ⟨3, 2⟩ ∧
      b'.place.arc = b.place.arc.map (fun a => { a with center := a.center - ⟨3, 2⟩ }) ∧
      Anchor.bottomLeft.point q.extent = ⟨-3, -2⟩ := by
  intro _ machine settings text p q
  have hprogram : (∀ b ∈ p.lines, b.call = none) ∧ (∀ b ∈ p.lines, b.isEditable = true) ∧
      (∀ b ∈ p.lines, b.hasCoordinates = true → b.absolute = false) ∧ p.extent.isEmpty = false ∧
      offsetSlot p.lines = some ⟨2, false⟩ ∧ p.executed.length = 4 ∧
      (∀ n < 4, ∀ b ∈ p.executed[n]?, b.isBounded = true → releasesShift p.lines n = true) ∧
      Anchor.bottomLeft.point p.extent + ⟨3, 2⟩ = ⟨3, 2⟩ := by
    decide +kernel
  obtain ⟨hcalls, heditable, hrelative, hextent, hslot, hlength, hcuts, hdelta⟩ := hprogram
  have hreleased : ∀ n b, p.executed[n]? = some b → b.isBounded = true → releasesShift p.lines n = true := by
    intro n b hb hbounded
    have hn : n < 4 := hlength ▸ (List.getElem?_eq_some_iff.mp hb).1
    exact hcuts n hn b hb hbounded
  have hany : (p.executed[3]?.any fun b => b.isDrawable && b.motion.isEngaged && b.place.arc.isSome &&
      decide (b.place.target.xy = ⟨14, 4⟩) && releasesShift p.lines 3) = true := by
    decide +kernel
  obtain ⟨b, hb, hall⟩ := (Option.any_eq_true _ _).mp hany
  simp only [Bool.and_eq_true, decide_eq_true_eq] at hall
  obtain ⟨⟨⟨⟨hdrawable, hengaged⟩, harc⟩, htarget⟩, hlater⟩ := hall
  obtain ⟨hedits, hmove, hsteps, hanchor⟩ := anchors_apply_relative text settings machine .bottomLeft ⟨3, 2⟩
    isSilent_default hcalls heditable hrelative hextent
  obtain ⟨move, hmove, hrapid⟩ := hmove _ hslot
  obtain ⟨b', hb', -⟩ := exists_getElem?_of_forall₂ hedits hb
  obtain ⟨-, hend, -, hcenter⟩ := hsteps 3 b b' hb hb' hdrawable hengaged
  rw [if_pos hlater, hdelta] at hend hcenter
  rw [htarget] at hend
  exact ⟨⟨isSilent_default, hcalls, heditable, hrelative, hextent, hslot, hreleased⟩, move, b, b', hmove, hrapid, hb, hb',
    hdrawable, hengaged, htarget, harc, hend, hcenter, (hanchor fun _ => hreleased).2.2⟩

-- A cut before the tool is lifted stays where it is, and so the anchor is missed.
example :
    let _ := PlaneFunctions.axial
    let p := read "G91\nG1 X10 Y10 F100\nG0 Z5\nG0 X5 Y5\nG1 X10\n" .default (.default : Machine ℚ)
    let q := (Edit.apply (.offset .bottomLeft ⟨3, 2⟩) p .default .default).1
    p.executed.map (·.place.target.xy) = [⟨0, 0⟩, ⟨10, 10⟩, ⟨10, 10⟩, ⟨15, 15⟩, ⟨25, 15⟩] ∧
      q.executed.map (·.place.target.xy) = [⟨0, 0⟩, ⟨10, 10⟩, ⟨10, 10⟩, ⟨12, 13⟩, ⟨22, 13⟩] ∧
      Anchor.bottomLeft.point q.extent = ⟨0, 0⟩ := by
  decide +kernel

end Program

end PartProgram
