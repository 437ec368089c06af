import Mathlib.Algebra.Order.Floor.Ring
import PartProgram.Proofs.Edit.Drift
import PartProgram.Proofs.Edit.Linearizing
import PartProgram.Proofs.Edit.Pieces
import PartProgram.Proofs.Edit.RoundTrip
import PartProgram.Proofs.Session

/-! # Cutting twice

A program that has been cut is read from the lines of its pieces before it is cut again. The pieces run straight
between the points that are written for them, and the lines behind them that select no motion run straight, too.
The second cut keeps the text unless it finds an arc or a long move among these lines.
-/

namespace PartProgram

open Word (latest)

section

variable {α : Type} [Scalar α]

/-! ### Legs -/

/-- A line as far as a cut looks at it. -/
structure Leg (α : Type) where
  motion : Motion
  /-- The line has an offset, which makes it an arc if its motion is one. -/
  bent : Bool
  start : Position α
  finish : Position α

/-- A cut finds an arc or a long move. -/
def Leg.isCut (maxStep : α) (l : Leg α) : Bool :=
  l.motion.isArc && l.bent ||
    l.motion == .linear && decide (0 < maxStep) && !decide (l.start.xy.distance l.finish.xy ≤ maxStep)

/-- The block runs the leg. -/
structure Block.RunsLeg (b : Block α) (l : Leg α) : Prop where
  motion : b.motion = l.motion
  bent : (b.i.isSome || b.j.isSome) = l.bent
  start : b.place.origin = l.start
  finish : b.place.target = l.finish

theorem Block.RunsLeg.isCut_eq {b : Block α} {l : Leg α} (h : b.RunsLeg l) (maxStep : α) :
    b.isCut maxStep = l.isCut maxStep := by
  rw [isCut, isLong, planarLength, Leg.isCut, h.motion, h.bent, h.start, h.finish]

theorem runsLeg_travel (machine : Machine α) (s : Modal α × Position α) (line : String) :
    (travel machine s line).2.RunsLeg
      { motion := (s.1.after line).motion
        bent := (lineWords line : LineWords α).i.isSome || (lineWords line : LineWords α).j.isSome
        start := s.2
        finish := (travel machine s line).1.2 } := by
  obtain ⟨hmotion, -, -, hi, hj, -, hplace⟩ := travel_snd machine s line
  refine ⟨hmotion, by rw [hi, hj], ?_, rfl⟩
  rw [hplace]
  rfl

end

variable {α : Type} [Field α] [LinearOrder α] [IsStrictOrderedRing α] [FloorRing α] [PlaneFunctions α]

/-- The place after `k` pieces that are begun at `start`, by the words that are written for them. -/
def Cut.printed (c : Cut α) (start : Position α) (k : ℕ) : Position α :=
  let coordinate (d : PathAxis) : α :=
    if k = 0 ∨ c.writes d = false then start.on d
    else if c.source.absolute then rounded c.places ((c.points k).on d)
    else start.on d + (c.ticks k).on d / Scalar.scale c.places
  ⟨coordinate .x, coordinate .y, coordinate .z⟩

/-- The legs that a line becomes, from the motion in effect and the place of the tool. -/
def Block.legs (machine : Machine α) (maxStep : α) (places : ℕ) (s : Motion × Position α) (b : Block α) :
    (Motion × Position α) × List (Leg α) :=
  match b.cut? maxStep places with
  | some c => ((.linear, c.printed s.2 c.count),
      (List.range c.count).map fun k => ⟨.linear, false, c.printed s.2 k, c.printed s.2 (k + 1)⟩)
  | none =>
    let motion := latest (Word.motion? α) s.1 (wordsOf b.text)
    let finish := b.targetFrom machine s.2
    ((motion, finish), [⟨motion, b.i.isSome || b.j.isSome, s.2, finish⟩])

/-- The legs of a program without calls once it has been cut. -/
def Program.legs (machine : Machine α) (maxStep : α) (places : ℕ) (p : Program α) : List (Leg α) :=
  (pass (Block.legs machine maxStep places) (.unset, machine.workPosition) p.lines).2.flatten

variable {format : NumberFormat} {e : Emitted α} {c : Cut α} {k : ℕ}

/-! ### The lines of pieces -/

namespace Cut

omit [IsStrictOrderedRing α] in
/-- A piece is written as a block that has its words from a text: the line of the move or an empty one. -/
theorem exists_fromText_piece (hfrom : c.source.FromText) (k : ℕ) (format : NumberFormat) (e : Emitted α) :
    ∃ b : Block α, b.FromText ∧ b.modified = true ∧ b.axes = c.axes k ∧
      b.write format e = (c.piece k).write format e := by
  by_cases hk : k = 1
  · have hextra : (c.piece k).extra = c.source.extra := if_pos hk
    exact ⟨c.piece k, hfrom.of_eq rfl hextra rfl rfl rfl (by simp [piece]), rfl, rfl, rfl⟩
  · -- only the first piece has anything of the line besides the path
    have hextra : (c.piece k).extra = {} := if_neg hk
    exact ⟨(c.piece k).stripped, Block.fromText_stripped rfl, rfl, rfl, Block.write_stripped rfl hextra format e⟩

/-- Read again, the line is piece `k` with its coordinates rounded. -/
structure PrintsPiece (c : Cut α) (k : ℕ) (line : String) : Prop extends c.SpellsPiece (fun _ => True) k line where
  rounded : ∀ d : PathAxis, (lineWords line : LineWords α).axes.get d.axis =
    ((c.axes k).get d.axis).map (PartProgram.rounded c.places)

theorem printsPiece_reread (hfrom : c.source.FromText) (hframe : c.source.machineFrame = false)
    (hplaces : c.places = format.decimalPlaces) (k : ℕ) (e : Emitted α) :
    c.PrintsPiece k ((c.piece k).reread format e) := by
  refine ⟨(isPiece_piece k).spellsPiece hfrom hframe hplaces e, fun d => ?_⟩
  obtain ⟨b, hb, hm, haxes, hwrite⟩ := exists_fromText_piece hfrom k format e
  have hrounded : b.asWritten format.decimalPlaces = PartProgram.rounded format.decimalPlaces := by
    funext v
    exact if_pos hm
  have hreread : (c.piece k).reread format e = b.reread format e := by
    rw [Block.reread, Block.reread, hwrite]
  rw [hreread, hb.get_axes_reread, hrounded, haxes, hplaces]

/-! ### Travelling along the pieces -/

omit [IsStrictOrderedRing α] in
theorem on_printed (c : Cut α) (start : Position α) (k : ℕ) (d : PathAxis) :
    (c.printed start k).on d =
      if k = 0 ∨ c.writes d = false then start.on d
      else if c.source.absolute then PartProgram.rounded c.places ((c.points k).on d)
      else start.on d + (c.ticks k).on d / Scalar.scale c.places := by
  cases d <;> rfl

omit [IsStrictOrderedRing α] in
theorem printed_zero (c : Cut α) (start : Position α) : c.printed start 0 = start :=
  Position.ext_on fun d => by rw [on_printed, if_pos (.inl rfl)]

variable {start : Position α} {s : Modal α × Position α} {line : String}

omit [IsStrictOrderedRing α] in
/-- Relative coordinates are counted from the start of the move. -/
theorem on_printed_of_relative (hrelative : c.source.absolute = false) {d : PathAxis} (hwrites : c.writes d = true)
    (k : ℕ) : (c.printed start k).on d = start.on d + (c.ticks k).on d / Scalar.scale c.places := by
  rw [on_printed]
  by_cases hk : k = 0
  · rw [if_pos (.inl hk), hk, on_ticks_zero, zero_div, add_zero]
  · rw [if_neg (by simp [hk, hwrites]), if_neg (by simp [hrelative])]

/-- One more piece. -/
theorem PrintsPiece.position (h : c.PrintsPiece (k + 1) line) (hready : c.Ready k s.1)
    (hs : s.2 = c.printed start k) (machine : Machine α) :
    (travel machine s line).1.2 = c.printed start (k + 1) := by
  refine Position.ext_on fun d => ?_
  have habsolute : (s.1.after line).absolute = c.source.absolute := by
    have hafter := (hready.after h.toSpellsPiece).absolute
    rwa [if_neg k.succ_ne_zero] at hafter
  have hword := h.rounded d
  rw [get_axes] at hword
  rw [travel_on h.machineFrame, habsolute, hword, hs]
  cases hwrites : c.writes d with
  | false =>
      rw [if_neg (by simp), on_printed, on_printed, if_pos (.inr hwrites), if_pos (.inr hwrites)]
      rfl
  | true =>
      rw [if_pos rfl, Option.map_some, reach, Option.elim]
      cases hmode : c.source.absolute with
      | true =>
          rw [if_pos rfl, on_written_of_absolute hmode, on_printed, if_neg (by simp [hwrites]), if_pos hmode]
      | false =>
          rw [if_neg (by simp), rounded_of_onGrid (onGrid_written hmode _ _), on_written_of_relative hmode,
            on_printed_of_relative hmode hwrites, on_printed_of_relative hmode hwrites, Nat.add_sub_cancel]
          ring

/-- The line of a piece runs straight from one printed place to the next. -/
theorem PrintsPiece.runsLeg (h : c.PrintsPiece (k + 1) line) (hready : c.Ready k s.1)
    (hs : s.2 = c.printed start k) (machine : Machine α) :
    (travel machine s line).2.RunsLeg ⟨.linear, false, c.printed start k, c.printed start (k + 1)⟩ := by
  have hruns := runsLeg_travel machine s line
  have hmotion := (hready.after h.toSpellsPiece).motion k.succ_ne_zero
  rw [hmotion, h.i, h.j, hs, h.position hready hs machine] at hruns
  exact hruns

/-- A row of pieces. -/
theorem runsLeg_pieces {n : ℕ} {lines : List String}
    (h : List.Forall₂ (fun k line => c.PrintsPiece (k + 1) line) (List.range' k n) lines)
    (hready : c.Ready k s.1) (hs : s.2 = c.printed start k) (machine : Machine α) :
    let t := pass (travel machine) s lines
    c.Ready (k + n) t.1.1 ∧ t.1.2 = c.printed start (k + n) ∧
      List.Forall₂ Block.RunsLeg t.2
        ((List.range' k n).map fun k => ⟨.linear, false, c.printed start k, c.printed start (k + 1)⟩) := by
  induction n generalizing k lines s with
  | zero =>
      obtain rfl := List.forall₂_nil_left_iff.mp h
      exact ⟨hready, hs, .nil⟩
  | succ n ih =>
      rw [List.range'_succ] at h
      obtain ⟨line, rest, hline, hrest, rfl⟩ := List.forall₂_cons_left_iff.mp h
      have hshift : k + 1 + n = k + (n + 1) := by omega
      have hnext : c.Ready (k + 1) (travel machine s line).1.1 := by
        rw [travel_modal]
        exact hready.after hline.toSpellsPiece
      obtain ⟨hend, hposition, hlegs⟩ := ih hrest hnext (hline.position hready hs machine)
      rw [hshift] at hend hposition
      rw [pass_cons, List.range'_succ, List.map_cons]
      exact ⟨hend, hposition, .cons (hline.runsLeg hready hs machine) hlegs⟩

end Cut

/-! ### Travelling along the lines -/

/-- The block as it stands in a program that has been read. -/
structure Block.Unedited (b : Block α) : Prop where
  fromText : b.FromText
  unmodified : b.modified = false
  arc : b.place.arc.isSome = (b.motion.isArc && (b.i.isSome || b.j.isSome))

omit [IsStrictOrderedRing α] in
theorem Program.unedited_of_mem_lines {lines : List String} {settings : Settings α} {machine : Machine α}
    {b : Block α} (hb : b ∈ (ofLines lines settings machine).lines) : b.Unedited where
  fromText := fromText_ofLines lines settings machine b hb
  unmodified := modified_place (modified_asRead lines settings) machine b hb
  arc := isSome_arc_of_mem_executed (lines_subset_executed _ hb)

/-- The tools that travel along a program and along its pieces, and the leg that has been reached. -/
structure Abreast (s s' : Modal α × Position α) (t : Motion × Position α) : Prop where
  absolute : s'.1.absolute = s.1.absolute
  motion : s'.1.motion = t.1
  position : s'.2 = t.2

namespace Block

variable {b : Block α} {group : List String} {maxStep : α} {machine : Machine α} {s s' : Modal α × Position α}
  {t : Motion × Position α}

theorem WrittenAs.printsPieces (h : b.WrittenAs format maxStep group) (hunedited : b.Unedited)
    (hcut : b.cut? maxStep format.decimalPlaces = some c) :
    List.Forall₂ (fun k line => c.PrintsPiece (k + 1) line) (List.range c.count) group := by
  obtain ⟨rfl, hplaces, -⟩ := source_of_cut? hcut
  have hframe : c.source.machineFrame = false := by
    have heditable := (eq_of_cut? hcut).1
    simp only [isEditable, Bool.not_eq_true', Bool.or_eq_false_iff] at heditable
    exact heditable.1.1
  rw [WrittenAs, linearized_eq_cut?, hcut, Option.elim_some, Cut.pieces, List.forall₂_map_left_iff] at h
  refine h.imp fun k line hline => ?_
  obtain ⟨e, rfl⟩ := hline
  exact Cut.printsPiece_reread hunedited.fromText hframe hplaces (k + 1) e

omit [IsStrictOrderedRing α] in
theorem WrittenAs.copied (h : b.WrittenAs format maxStep group)
    (hcut : b.cut? maxStep format.decimalPlaces = none) : ∃ e, group = [b.reread format e] := by
  rw [WrittenAs, linearized_eq_cut?, hcut, Option.elim_none] at h
  obtain ⟨line, rest, ⟨e, hline⟩, hrest, rfl⟩ := List.forall₂_cons_left_iff.mp h
  obtain rfl := List.forall₂_nil_left_iff.mp hrest
  exact ⟨e, by rw [hline]⟩

omit [IsStrictOrderedRing α] in
theorem WrittenAs.ne_nil (h : b.WrittenAs format maxStep group) : group ≠ [] := by
  rintro rfl
  have hnil := List.forall₂_nil_right_iff.mp h
  rw [linearized_eq_cut?] at hnil
  cases hcut : b.cut? maxStep format.decimalPlaces with
  | none => simp [hcut] at hnil
  | some c =>
      rw [hcut, Option.elim_some, ← List.length_eq_zero_iff, Cut.length_pieces] at hnil
      exact count_ne_zero_of_cut? (fun _ _ h => toNat_ne_zero h) hcut hnil

omit [IsStrictOrderedRing α] in
theorem targetFrom_congr {b' : Block α} (haxes : b'.axes = b.axes) (habsolute : b'.absolute = b.absolute)
    (hframe : b'.machineFrame = b.machineFrame) (machine : Machine α) (p : Position α) :
    b'.targetFrom machine p = b.targetFrom machine p := by
  simp only [targetFrom, axisTarget, haxes, habsolute, hframe]

omit [IsStrictOrderedRing α] in
/-- A copy of the line runs its leg, in the motion that it finds. -/
theorem Unedited.runsLeg (h : b.Unedited) {line : String} (hwords : wordsOf line = wordsOf b.text)
    (hb : (travel machine s b.text).2 = b.moving) (hs : Abreast s s' t) :
    let motion := latest (Word.motion? α) t.1 (wordsOf b.text)
    let finish := b.targetFrom machine t.2
    Abreast (travel machine s b.text).1 (travel machine s' line).1 (motion, finish) ∧
      (travel machine s' line).2.RunsLeg ⟨motion, b.i.isSome || b.j.isSome, t.2, finish⟩ := by
  intro motion finish
  have hline : (lineWords line : LineWords α) = lineWords b.text := by rw [lineWords, hwords, lineWords]
  obtain ⟨haxes, hi, hj⟩ := h.fromText.unmodified h.unmodified
  have habsolute : (s'.1.after line).absolute = (s.1.after b.text).absolute := by
    rw [Modal.after, Modal.after, hwords, hs.absolute]
  have hmotion : (s'.1.after line).motion = motion := by
    rw [Modal.after, hwords, hs.motion]
  have hfinish : (travel machine s' line).1.2 = finish := by
    obtain ⟨-, hmode, hread, -, -, hframe, hplace⟩ := travel_snd machine s' line
    rw [travel_position, hplace, hs.position]
    refine targetFrom_congr ?_ ?_ ?_ machine t.2
    · rw [hread, hline, haxes]
    · rw [hmode, habsolute, absolute_of_travel_eq hb]
    · rw [hframe, hline, h.fromText.machineFrame]
  have hruns := runsLeg_travel machine s' line
  rw [hmotion, hline, ← hi, ← hj, hs.position, hfinish] at hruns
  exact ⟨⟨by rw [travel_modal, travel_modal, habsolute], by rw [travel_modal, hmotion], hfinish⟩, hruns⟩

/-- The pieces of a cut run straight from where the tool is. -/
theorem WrittenAs.runsLegs_cut (h : c.source.WrittenAs format maxStep group) (hunedited : c.source.Unedited)
    (hcut : c.source.cut? maxStep format.decimalPlaces = some c)
    (hb : (travel machine s c.source.text).2 = c.source.moving) (hs : Abreast s s' t) :
    let u := pass (travel machine) s' group
    Abreast (travel machine s c.source.text).1 u.1 (.linear, c.printed t.2 c.count) ∧
      List.Forall₂ RunsLeg u.2
        ((List.range c.count).map fun k => ⟨.linear, false, c.printed t.2 k, c.printed t.2 (k + 1)⟩) := by
  have hpieces := h.printsPieces hunedited hcut
  have hready : c.Ready 0 s'.1 := by
    refine ⟨?_, fun h => absurd rfl h⟩
    rw [if_pos rfl, hs.absolute, ← absolute_of_travel_eq hb, Modal.after]
  rw [List.range_eq_range'] at hpieces ⊢
  obtain ⟨hend, hposition, hruns⟩ := Cut.runsLeg_pieces hpieces hready
    (hs.position.trans (c.printed_zero t.2).symm) machine
  rw [Nat.zero_add] at hend hposition
  have hcount := count_ne_zero_of_cut? (fun _ _ h => toNat_ne_zero h) hcut
  -- the first piece has selected the distance mode of the line
  have hmode := hend.absolute
  rw [if_neg hcount, ← absolute_of_travel_eq hb, ← travel_modal machine] at hmode
  exact ⟨⟨hmode, hend.motion hcount, hposition⟩, hruns⟩

/-- The lines of a block run its legs. -/
theorem WrittenAs.runsLegs (h : b.WrittenAs format maxStep group) (hunedited : b.Unedited)
    (hb : (travel machine s b.text).2 = b.moving) (hs : Abreast s s' t) :
    Abreast (travel machine s b.text).1 (pass (travel machine) s' group).1
        (b.legs machine maxStep format.decimalPlaces t).1 ∧
      List.Forall₂ RunsLeg (pass (travel machine) s' group).2 (b.legs machine maxStep format.decimalPlaces t).2 := by
  cases hcut : b.cut? maxStep format.decimalPlaces with
  | some c =>
      obtain ⟨rfl, -⟩ := source_of_cut? hcut
      simp only [Block.legs, hcut]
      exact h.runsLegs_cut hunedited hcut hb hs
  | none =>
      obtain ⟨e, rfl⟩ := h.copied hcut
      obtain ⟨hnext, hruns⟩ := hunedited.runsLeg (wordsOf_reread_of_unmodified format e hunedited.unmodified) hb hs
      simp only [Block.legs, hcut, pass_cons, pass_nil]
      exact ⟨hnext, .cons hruns .nil⟩

/-- Lines and their groups, one after the other. -/
theorem runsLegs_groups {bs : List (Block α)} {groups : List (List String)}
    (h : List.Forall₂ (fun b group => b.Unedited ∧ b.WrittenAs format maxStep group) bs groups)
    (hbs : (pass (travel machine) s (bs.map (·.text))).2 = bs.map moving) (hs : Abreast s s' t) :
    List.Forall₂ RunsLeg (pass (travel machine) s' groups.flatten).2
      (pass (legs machine maxStep format.decimalPlaces) t bs).2.flatten := by
  induction h generalizing s s' t with
  | nil => exact .nil
  | @cons b group bs groups hb _ ih =>
      rw [List.map_cons, List.map_cons, pass_cons] at hbs
      obtain ⟨hblock, hrest⟩ := List.cons.inj hbs
      obtain ⟨hnext, hruns⟩ := hb.2.runsLegs hb.1 hblock hs
      rw [List.flatten_cons, pass_append, pass_cons, List.flatten_cons]
      exact List.rel_append hruns (ih hrest hnext)

end Block

/-! ### Lines that are not cut again -/

namespace Block

variable {b : Block α} {maxStep : α}

/-- A long move is cut into two pieces at least. -/
theorem two_le_count_lineCut (h : b.isLong maxStep = true) (places : ℕ) :
    2 ≤ (b.lineCut maxStep places).count := by
  simp only [isLong, Bool.and_eq_true, decide_eq_true_eq, Bool.not_eq_true', decide_eq_false_iff_not, not_le] at h
  obtain ⟨⟨-, hpositive⟩, hlong⟩ := h
  have hpieces : 2 ≤ Arc.maxPieces := by decide
  have hzero : (Scalar.ofNat 0 : α) = 0 := Nat.cast_zero
  have hstep : 0 < maxStep := by
    rw [← hzero]
    exact hpositive
  have hparts : 1 < ⌈b.planarLength / maxStep⌉ := by
    rw [Int.lt_ceil, Int.cast_one, lt_div_iff₀ hstep, one_mul]
    exact hlong
  rw [count_lineCut]
  omega

/-- A line that is written as it was is not cut: an arc would lose its offsets, and a long move would become
several lines. -/
theorem WrittenAs.cut?_eq_none (h : b.WrittenAs format maxStep [b.text]) (hunedited : b.Unedited) :
    b.cut? maxStep format.decimalPlaces = none := by
  rw [Option.eq_none_iff_forall_ne_some]
  intro c hcut
  have hpieces := h.printsPieces hunedited hcut
  have hcount : c.count = 1 := by simpa using hpieces.length_eq
  rw [hcount, List.range_one] at hpieces
  obtain ⟨hpiece, -⟩ := List.forall₂_cons.mp hpieces
  obtain ⟨-, hi, hj⟩ := hunedited.fromText.unmodified hunedited.unmodified
  obtain ⟨-, ⟨arc, harc, -⟩ | ⟨hlong, rfl⟩⟩ := eq_of_cut? hcut
  · have hsome := hunedited.arc
    rw [harc, hi, hj, hpiece.i, hpiece.j] at hsome
    simp at hsome
  · have htwo := two_le_count_lineCut hlong format.decimalPlaces
    omega

end Block

namespace Program

variable {lines : List String} {settings : Settings α} {machine : Machine α} {maxStep : α}

omit [IsStrictOrderedRing α] in
theorem linearListing_of_uncut {bs : List (Block α)}
    (h : ∀ b ∈ bs, b.cut? maxStep format.decimalPlaces = none) :
    linearListing format maxStep bs = listing format bs := by
  have hlines : bs.flatMap (Block.linearized maxStep (some maxStep) format.decimalPlaces) = bs := by
    conv_rhs => rw [← List.flatMap_singleton' bs]
    refine List.flatMap_congr fun b hb => ?_
    rw [Block.linearized_eq_cut?, h b hb, Option.elim_none]
  rw [linearListing, hlines]

omit [IsStrictOrderedRing α] in
theorem exists_unedited_groups (hlines : ∀ line ∈ lines, '\n' ∉ line.toList) (settings : Settings α)
    (machine : Machine α) (format : NumberFormat) (maxStep : α) :
    let p := ofLines lines settings machine
    ∃ groups, Text.lines (linearListing format maxStep p.lines) = groups.flatten ∧
      List.Forall₂ (fun b group => b.Unedited ∧ b.WrittenAs format maxStep group) p.lines groups := by
  intro p
  obtain ⟨groups, htext, hgroups⟩ :=
    exists_groups_linearListing (unbroken_ofLines hlines settings machine) format maxStep
  exact ⟨groups, htext, (List.forall₂_and_left _ _).mpr ⟨fun b hb => unedited_of_mem_lines hb, hgroups⟩⟩

/-- A program that a cut lists with the same lines has no line to cut. -/
theorem cut?_eq_none_of_lines_eq (hlines : ∀ line ∈ lines, '\n' ∉ line.toList)
    (hsame : Text.lines (linearListing format maxStep (ofLines lines settings machine).lines) = lines) :
    ∀ b ∈ (ofLines lines settings machine).lines, b.cut? maxStep format.decimalPlaces = none := by
  intro b hb
  obtain ⟨groups, htext, hgroups⟩ := exists_unedited_groups hlines settings machine format maxStep
  rw [hsame, ← texts_ofLines lines settings machine] at htext
  have hne : ∀ group ∈ groups, group ≠ [] :=
    forall_mem_of_forall₂ (P := fun _ => True) (fun _ _ h _ => h.2.ne_nil) hgroups fun _ _ => trivial
  obtain ⟨hunedited, hgroup⟩ := forall_mem_singleton_of_forall₂ hgroups hne htext.symm b hb
  exact hgroup.cut?_eq_none hunedited

omit [IsStrictOrderedRing α] in
/-- The lines of pieces do not end in carriage returns. -/
theorem getLast?_written_iff {bs : List (Block α)} (hbs : ∀ b ∈ bs, b.Unedited) (e : Emitted α) :
    (∀ line ∈ (pass (Block.write format) e
        (bs.flatMap (Block.linearized maxStep (some maxStep) format.decimalPlaces))).2,
      line.toList.getLast? ≠ some '\r') ↔
    ∀ b ∈ bs, b.cut? maxStep format.decimalPlaces = none → b.text.toList.getLast? ≠ some '\r' := by
  constructor
  · intro h b hb hcut
    have hmem : b ∈ bs.flatMap (Block.linearized maxStep (some maxStep) format.decimalPlaces) := by
      refine List.mem_flatMap.mpr ⟨b, hb, ?_⟩
      rw [Block.linearized_eq_cut?, hcut]
      exact List.mem_singleton_self b
    obtain ⟨n, hn⟩ := List.mem_iff_getElem?.mp hmem
    obtain ⟨line, hline, e, rfl⟩ := exists_getElem?_of_forall₂
      (forall₂_pass (R := fun b line => ∃ e, line = (Block.write format e b).2) (fun e b => ⟨e, rfl⟩) e _) hn
    have hlast := h _ (List.mem_of_getElem? hline)
    rwa [Block.write_of_unmodified (hbs b hb).unmodified] at hlast
  · intro h line hline
    obtain ⟨e, b', hb', rfl⟩ := exists_of_mem_pass hline
    obtain ⟨b, hb, hb'⟩ := List.mem_flatMap.mp hb'
    rw [Block.linearized_eq_cut?] at hb'
    cases hcut : b.cut? maxStep format.decimalPlaces with
    | none =>
        rw [hcut, Option.elim_none, List.mem_singleton] at hb'
        rw [hb', Block.write_of_unmodified (hbs b hb).unmodified]
        exact h b hb hcut
    | some c =>
        obtain ⟨rfl, -⟩ := Block.source_of_cut? hcut
        rw [hcut] at hb'
        obtain ⟨k, -, rfl⟩ := Cut.exists_of_mem_pieces hb'
        obtain ⟨b, hfrom, hm, -, hwrite⟩ := Cut.exists_fromText_piece (hbs c.source hb).fromText (k + 1) format e
        rw [← hwrite]
        exact hfrom.getLast?_write format e hm b.isFinite

/-- A second cut gives the same text if it finds nothing to cut, and if no carriage return is left at the end of a
line. -/
theorem linearListing_read_eq_iff (hlines : ∀ line ∈ lines, '\n' ∉ line.toList) :
    let p := ofLines lines settings machine
    let text := linearListing settings.format maxStep p.lines
    let r := read text settings machine
    linearListing settings.format maxStep r.lines = text ↔
      (∀ b ∈ p.lines, b.cut? maxStep settings.format.decimalPlaces = none → b.text.toList.getLast? ≠ some '\r') ∧
        ∀ b ∈ r.lines, b.cut? maxStep settings.format.decimalPlaces = none := by
  intro p text r
  have hunbroken : ∀ line ∈ (pass (Block.write settings.format) Emitted.atStart
      (p.lines.flatMap (Block.linearized maxStep (some maxStep) settings.format.decimalPlaces))).2,
      '\n' ∉ line.toList := by
    refine Block.Unbroken.not_mem_listing (fun b hb => ?_) _
    obtain ⟨b₀, hb₀, hb⟩ := List.mem_flatMap.mp hb
    exact (unbroken_ofLines hlines settings machine b₀ hb₀).linearized _ _ _ b hb
  have hreturns := Text.ofLines_dropReturn_eq_iff hunbroken
  rw [getLast?_written_iff (fun b hb => unedited_of_mem_lines hb), ← Text.lines_ofLines hunbroken] at hreturns
  have hread : (∀ b ∈ r.lines, b.cut? maxStep settings.format.decimalPlaces = none) →
      linearListing settings.format maxStep r.lines = Text.ofLines (Text.lines text) := by
    intro huncut
    rw [linearListing_of_uncut huncut]
    exact text_ofLines (Text.lines text) settings machine settings.format
  constructor
  · intro hsame
    -- each line is its own group in the second listing, which leaves nothing to cut
    have huncut : ∀ b ∈ r.lines, b.cut? maxStep settings.format.decimalPlaces = none :=
      cut?_eq_none_of_lines_eq (fun _ => Text.not_mem_of_mem_lines) (congrArg Text.lines hsame)
    exact ⟨hreturns.mp ((hread huncut).symm.trans hsame), huncut⟩
  · rintro ⟨hlast, huncut⟩
    exact (hread huncut).trans (hreturns.mpr hlast)

/-- The pieces of a line without a call have none. -/
theorem call?_eq_none_of_mem_group {b : Block α} {group : List String} (hunedited : b.Unedited)
    (h : b.WrittenAs format maxStep group) (hcall : b.call = none) :
    ∀ line ∈ group, (LineCodes.ofLine α line).call? = none := by
  have hcodes : (LineCodes.ofLine α b.text).call? = none := by rw [← hunedited.fromText.call, hcall]
  cases hcut : b.cut? maxStep format.decimalPlaces with
  | none =>
      obtain ⟨e, rfl⟩ := h.copied hcut
      intro line hline
      rw [List.mem_singleton.mp hline, Block.codes_reread format e hunedited.fromText, hcodes]
  | some c =>
      have hpieces := h.printsPieces hunedited hcut
      obtain ⟨rfl, -⟩ := Block.source_of_cut? hcut
      refine forall_mem_of_forall₂ (P := fun _ => True) (fun k line hline _ => ?_) hpieces fun _ _ => trivial
      rw [hline.codes]
      split
      · exact hcodes
      · rfl

/-- The lines of a cut program run its legs. -/
theorem runsLeg_lines (hlines : ∀ line ∈ lines, '\n' ∉ line.toList)
    (hcalls : ∀ b ∈ (ofLines lines settings machine).lines, b.call = none) (maxStep : α) :
    let p := ofLines lines settings machine
    List.Forall₂ Block.RunsLeg (read (linearListing settings.format maxStep p.lines) settings machine).lines
      (p.legs machine maxStep settings.format.decimalPlaces) := by
  intro p
  obtain ⟨groups, htext, hgroups⟩ := exists_unedited_groups hlines settings machine settings.format maxStep
  have hcodes : ∀ line ∈ groups.flatten, (LineCodes.ofLine α line).call? = none :=
    forall_mem_flatten_of_forall₂ (fun _ _ h hcall => call?_eq_none_of_mem_group h.1 h.2 hcall) hgroups hcalls
  have hold : p.IsStraight := isStraight_ofLines (codes_of_call_eq_none hcalls) machine
  have hnew : (ofLines groups.flatten settings machine).IsStraight := isStraight_ofLines hcodes machine
  have htravel : (pass (travel machine) (Modal.initial, machine.workPosition) (p.executed.map (·.text))).2 =
      p.executed.map Block.moving := pass_travel_executed lines settings machine
  have htravelled := pass_travel_executed groups.flatten settings machine
  rw [hold.executed_eq] at htravel
  simp only [hnew.executed_eq, texts_ofLines] at htravelled
  have hlegs := Block.runsLegs_groups hgroups htravel (t := (.unset, machine.workPosition)) ⟨rfl, rfl, rfl⟩
  rw [htravelled, List.forall₂_map_left_iff] at hlegs
  rw [read, htext]
  exact hlegs.imp fun b l h => ⟨h.motion, h.bent, h.start, h.finish⟩

end Program

namespace Session

variable (s : Session α) {lines : List String}

omit [IsStrictOrderedRing α] in
theorem linearize_snd : s.linearize.2 = linearListing s.settings.format s.settings.maxStep s.program.lines := by
  rw [linearize]
  split
  · rename_i hempty
    have hnil : s.program.lines = [] := by rw [Program.lines, List.isEmpty_iff.mp hempty, List.map_nil]
    rw [hnil]
    rfl
  · rfl

omit [IsStrictOrderedRing α] in
/-- A session goes on with the text of the cut. -/
theorem program_linearize (h : s.program = .ofLines lines s.settings s.machine) :
    s.linearize.1.settings = s.settings ∧
      s.linearize.1.program = .read s.linearize.2 s.settings s.machine := by
  rw [linearize]
  split
  · rename_i hempty
    have hlines : lines = [] := by
      rw [← Program.texts_ofLines lines s.settings s.machine, ← h, Program.lines, List.isEmpty_iff.mp hempty]
      rfl
    have hread : Text.lines "" = [] := by decide
    rw [Program.read, hread, h, hlines]
    exact ⟨rfl, rfl⟩
  · simp only [load, and_self]

omit [IsStrictOrderedRing α] in
theorem linearize_linearize_snd (h : s.program = .ofLines lines s.settings s.machine) :
    s.linearize.1.linearize.2 =
      linearListing s.settings.format s.settings.maxStep s.linearize.1.program.lines := by
  have hsecond := s.linearize.1.linearize_snd
  rwa [(s.program_linearize h).1] at hsecond

/-- A program without calls is cut twice. The second text is the first one if no line that is copied ends in a
carriage return and if, as far as they may be edited, no line of the cut program runs an arc or a long move. -/
theorem linearize_linearize_eq_iff (text : String)
    (hcalls : ∀ b ∈ (s.load text).program.lines, b.call = none) :
    let p := (s.load text).program
    let maxStep := s.settings.maxStep
    let places := s.settings.format.decimalPlaces
    let first := (s.load text).linearize
    let second := first.1.linearize
    second.2 = first.2 ↔
      (∀ b ∈ p.lines, b.cut? maxStep places = none → b.text.toList.getLast? ≠ some '\r') ∧
        List.Forall₂ (fun b leg => b.isEditable = true → leg.isCut maxStep = false) first.1.program.lines
          (p.legs s.machine maxStep places) := by
  intro p maxStep places first second
  have hlines : ∀ line ∈ Text.lines text, '\n' ∉ line.toList := fun _ => Text.not_mem_of_mem_lines
  have hfirst : first.2 = linearListing s.settings.format maxStep p.lines := (s.load text).linearize_snd
  have hloaded : (s.load text).program = .ofLines (Text.lines text) s.settings s.machine := rfl
  have hsecond : second.2 = linearListing s.settings.format maxStep first.1.program.lines :=
    (s.load text).linearize_linearize_snd hloaded
  have hread : first.1.program = .read first.2 s.settings s.machine :=
    ((s.load text).program_linearize hloaded).2
  rw [hfirst] at hread
  have hlegs := Program.runsLeg_lines hlines hcalls maxStep
  rw [hsecond, hfirst, hread]
  refine (Program.linearListing_read_eq_iff hlines).trans (and_congr_right fun _ => ?_)
  refine forall_mem_iff_forall₂ hlegs fun b hb leg hruns => ?_
  rw [← Option.isNone_iff_eq_none, ← Option.isSome_eq_false_iff,
    Block.isSome_cut? (Program.unedited_of_mem_lines hb).arc maxStep places, hruns.isCut_eq, Bool.and_eq_false_imp]

/-- The line behind a half circle has no motion word. As an arc without an offset it is not cut, but behind the pieces
of the half circle it runs straight. A line with a motion of its own is left alone by both cuts. -/
theorem linearize_linearize_behind_arc :
    let _ := PlaneFunctions.axial
    let s : Session ℚ := .new { (.default : Settings ℚ) with maxStep := 2 } .default
    let sticky := (s.load "G2 X2 I1 F100\nX5\n").linearize
    let rapid := (s.load "G2 X2 I1 F100\nG0 X5\n").linearize
    (∀ b ∈ (s.load "G2 X2 I1 F100\nX5\n").program.lines, b.call = none) ∧
      (∀ b ∈ (s.load "G2 X2 I1 F100\nG0 X5\n").program.lines, b.call = none) ∧
      sticky.1.linearize.2 ≠ sticky.2 ∧ rapid.1.linearize.2 = rapid.2 := by
  intro _ s sticky rapid
  have hsticky : ∀ b ∈ (s.load "G2 X2 I1 F100\nX5\n").program.lines, b.call = none := by decide +kernel
  have hrapid : ∀ b ∈ (s.load "G2 X2 I1 F100\nG0 X5\n").program.lines, b.call = none := by decide +kernel
  refine ⟨hsticky, hrapid, ?_, ?_⟩
  · intro hsame
    have hlegs := ((s.linearize_linearize_eq_iff _ hsticky).mp hsame).2
    exact absurd hlegs (by decide +kernel)
  · exact (s.linearize_linearize_eq_iff _ hrapid).mpr (by decide +kernel)

/-- A third of the move keeps the step, but it is written as `X0.667`, which does not. -/
example :
    let _ := PlaneFunctions.axial
    let s : Session ℚ := .new { (.default : Settings ℚ) with maxStep := 6667 / 10000 } .default
    let first := (s.load "G1 X2 F100\n").linearize
    first.2 = "G1 X0.667 Y0 F100\nG1 X1.333 Y0\nG1 X2 Y0\n" ∧ first.1.linearize.2 ≠ first.2 := by
  decide +kernel

end Session

end PartProgram
