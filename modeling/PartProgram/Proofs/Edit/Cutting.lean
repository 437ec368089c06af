import Mathlib.Algebra.Order.Floor.Ring
import PartProgram.Proofs.Edit.PassThrough
import PartProgram.Proofs.Edit.Rereading
import PartProgram.Proofs.Program.Travel

/-! # Moves in pieces

The pieces of a move are written and read again. They take the tool to the end of the move, from
wherever they are begun, as long as the numbers are on the grid of the last written place.
-/

namespace PartProgram

open Word (latest)

section

variable {α : Type} [Scalar α]

/-! ### The words of a piece -/

omit [Scalar α] in
theorem AxisWords.get_foldl_set {axis : Axis} {others : List Axis} (h : axis ∉ others) (f : Axis → Option α)
    (words : AxisWords α) :
    (others.foldl (fun words other => words.set other (f other)) words).get axis = words.get axis := by
  induction others generalizing words with
  | nil => rfl
  | cons other others ih =>
      rw [List.mem_cons, not_or] at h
      rw [List.foldl_cons, ih h.2, get_set_of_ne _ _ h.1]

namespace Cut

variable (c : Cut α)

/-- The pieces have words for the axis. -/
def writes : PathAxis → Bool
  | .x | .y => true
  | .z => c.source.z.isSome || c.source.place.target.z != c.source.place.origin.z

theorem get_axes (k : ℕ) (d : PathAxis) :
    (c.axes k).get d.axis = if c.writes d then some ((c.written k).on d) else none := by
  have hothers : ∀ words : AxisWords α,
      (if k = c.count then otherAxes.foldl (fun axes axis => axes.set axis (c.source.axes.get axis)) words
        else words).get d.axis = words.get d.axis := by
    intro words
    split
    · refine AxisWords.get_foldl_set ?_ _ words
      cases d <;> decide
    · rfl
  rw [axes, hothers]
  cases d
  case x | y => split <;> simp [PathAxis.axis, writes, Position.on, AxisWords.set]
  case z =>
    simp only [writes]
    split <;> rename_i h <;> simp [PathAxis.axis, Position.on, AxisWords.set, AxisWords.none, h]

end Cut

end

variable {α : Type} [Field α] [LinearOrder α] [IsStrictOrderedRing α] [FloorRing α] [PlaneFunctions α]

/-! ### Lines that spell blocks -/

namespace Block

/-- Read again, the line has the distance mode and the codes of the block's text, and the numbers of the
block that are on the grid. If the block has been changed, the line selects its motion. No hidden section
starts on it that does not start in the text. -/
structure Spells (places : ℕ) (b : Block α) (line : String) : Prop where
  codes : LineCodes.ofLine α line = LineCodes.ofLine α b.text
  distance : ∀ absolute, latest (Word.distance? α) absolute (wordsOf line) =
    latest (Word.distance? α) absolute (wordsOf b.text)
  motion : b.modified = true → b.motion ≠ .unset → ∀ m, latest (Word.motion? α) m (wordsOf line) = b.motion
  copied : b.modified = false → wordsOf line = wordsOf b.text
  word : ∀ axis, (∀ v ∈ b.axes.get axis, PartProgram.OnGrid places v) →
    (lineWords line : LineWords α).axes.get axis = b.axes.get axis
  i : b.i = none → (lineWords line : LineWords α).i = none
  j : b.j = none → (lineWords line : LineWords α).j = none
  machineFrame : (lineWords line : LineWords α).machineFrame = false
  unmarked : Markers.onLine ({} : Markers).hideStart b.text = false →
    Markers.onLine ({} : Markers).hideStart line = false

variable {b : Block α}

theorem FromText.spells (h : b.FromText) (hframe : b.machineFrame = false) (format : NumberFormat)
    (e : Emitted α) : b.Spells format.decimalPlaces (b.reread format e) := by
  have hwords := wordsOf_reread format e h
  have hcodes := codes_reread format e h
  have hmachine := (machineFrame_reread format e h).trans hframe
  have hunmarked := h.unmarked_reread format e
  cases hm : b.modified with
  | false =>
      rw [hm, if_neg (by simp)] at hwords
      obtain ⟨haxes, hi, hj⟩ := h.unmodified hm
      have hline : (lineWords (b.reread format e) : LineWords α) = lineWords b.text := by
        rw [lineWords, hwords, lineWords]
      refine ⟨hcodes, fun _ => by rw [hwords], by simp [hm], fun _ => hwords, ?_, ?_, ?_, hmachine, hunmarked⟩
      · exact fun axis _ => by rw [hline, haxes]
      · exact fun hnone => by rw [hline, ← hi, hnone]
      · exact fun hnone => by rw [hline, ← hj, hnone]
  | true =>
      rw [hm, if_pos rfl] at hwords
      have hdistance := latest_distance?_rewritten (b := b) format e
      have hmotion := latest_motion?_rewritten (b := b) format e
      have haxis : ∀ axis : Axis, (∀ v ∈ b.axes.get axis, PartProgram.OnGrid format.decimalPlaces v) →
          latest (Word.written? α axis.letter) none (b.rewritten format e) = b.axes.get axis :=
        fun axis hgrid =>
          latest_written?_rewritten format e (.inl ⟨axis, rfl⟩) (filter_numbers_axis e b axis) hgrid
      have hi : b.i = none → latest (Word.written? α 'I') none (b.rewritten format e) = none := fun hnone =>
        latest_written?_rewritten format e (.inr (.inl rfl)) (by rw [(filter_numbers e b).1, hnone]) (by simp)
      have hj : b.j = none → latest (Word.written? α 'J') none (b.rewritten format e) = none := fun hnone =>
        latest_written?_rewritten format e (.inr (.inr (.inl rfl))) (by rw [(filter_numbers e b).2.1, hnone])
          (by simp)
      have hline : (lineWords (b.reread format e) : LineWords α) =
          (b.rewritten format e).foldl LineWords.add {} := by rw [lineWords, hwords]
      generalize b.rewritten format e = ws at *
      rw [LineWords.foldl_add] at hline
      refine ⟨hcodes, ?_, ?_, by simp [hm], ?_, ?_, ?_, hmachine, hunmarked⟩
      · exact fun absolute => by rw [hwords, hdistance]
      · exact fun _ hset m => by rw [hwords, hmotion, if_neg hset]
      · intro axis hgrid
        rw [hline]
        exact haxis axis hgrid
      · intro hnone
        rw [hline]
        exact hi hnone
      · intro hnone
        rw [hline]
        exact hj hnone

/-- The block without anything that its text has besides the path. -/
def stripped (b : Block α) : Block α :=
  { b with text := "", extra := {}, machineFrame := false, call := none, programEnd := false }

omit [IsStrictOrderedRing α] in
theorem fromText_stripped (hm : b.modified = true) : b.stripped.FromText := by
  have hwords : wordsOf "" = [] := by decide
  have hcomment : (Content.ofLine "").comment? = none := by decide
  constructor
  case unmodified => simp [stripped, hm]
  all_goals
    simp [stripped, lineWords, LineCodes.ofLine_eq, hwords, hcomment, LineCodes.call?, LineCodes.endsProgram]

omit [IsStrictOrderedRing α] in
theorem write_stripped (hm : b.modified = true) (hextra : b.extra = {}) (format : NumberFormat)
    (e : Emitted α) : b.stripped.write format e = b.write format e := by
  have hdraft : b.stripped.draft e = b.draft e := by
    rw [draft_eq, draft_eq, hextra]
    rfl
  have hm' : b.stripped.modified = true := hm
  rw [write, write, if_pos hm, if_pos hm', hdraft]

omit [IsStrictOrderedRing α] in
theorem reread_stripped (hm : b.modified = true) (hextra : b.extra = {}) (format : NumberFormat)
    (e : Emitted α) : b.stripped.reread format e = b.reread format e := by
  rw [reread, reread, write_stripped hm hextra]

end Block

omit [IsStrictOrderedRing α] in
/-- The text of a listing has one line for each block. -/
theorem forall₂_lines_listing {bs : List (Block α)} (h : ∀ b ∈ bs, b.Unbroken) (format : NumberFormat) :
    List.Forall₂ (fun b line => ∃ e, line = b.reread format e) bs (Text.lines (listing format bs)) := by
  rw [listing, Text.lines_ofLines (Block.Unbroken.not_mem_listing h _), List.forall₂_map_right_iff]
  exact forall₂_pass (fun e b => ⟨e, rfl⟩) _ bs

/-! ### Lines that spell pieces -/

namespace Cut

/-- The block is piece `k`, up to words for other axes than the given ones. -/
structure IsPiece (on : PathAxis → Prop) (c : Cut α) (k : ℕ) (b : Block α) : Prop where
  edit : (c.piece k).EditOf b
  motion : b.motion = .linear
  i : b.i = none
  j : b.j = none
  axes : ∀ d, on d → b.axes.get d.axis = (c.axes k).get d.axis

/-- Read again, the line is piece `k` as far as the given axes show. Only the first piece has the modes
and the codes of the move. -/
structure SpellsPiece (on : PathAxis → Prop) (c : Cut α) (k : ℕ) (line : String) : Prop where
  codes : LineCodes.ofLine α line = if k = 1 then LineCodes.ofLine α c.source.text else {}
  distance : ∀ absolute, latest (Word.distance? α) absolute (wordsOf line) =
    if k = 1 then latest (Word.distance? α) absolute (wordsOf c.source.text) else absolute
  motion : ∀ m, latest (Word.motion? α) m (wordsOf line) = .linear
  word : ∀ d, on d → (∀ v ∈ (c.axes k).get d.axis, OnGrid c.places v) →
    (lineWords line : LineWords α).axes.get d.axis = (c.axes k).get d.axis
  i : (lineWords line : LineWords α).i = none
  j : (lineWords line : LineWords α).j = none
  machineFrame : (lineWords line : LineWords α).machineFrame = false
  unmarked : Markers.onLine ({} : Markers).hideStart c.source.text = false →
    Markers.onLine ({} : Markers).hideStart line = false

/-- The lines are the pieces of a move, one after the other. -/
def SpellsMove (on : PathAxis → Prop) (c : Cut α) (lines : List String) : Prop :=
  List.Forall₂ (fun k line => c.SpellsPiece on (k + 1) line) (List.range c.count) lines

variable {on : PathAxis → Prop} {c : Cut α} {k : ℕ} {b : Block α} {lines : List String}

omit [IsStrictOrderedRing α] in
theorem SpellsMove.forall_mem (h : c.SpellsMove on lines) {P : String → Prop}
    (hP : ∀ k line, c.SpellsPiece on (k + 1) line → P line) : ∀ line ∈ lines, P line :=
  forall_mem_of_forall₂ (fun k line hline _ => hP k line hline) h fun _ _ => trivial

omit [IsStrictOrderedRing α] in
theorem SpellsMove.ne_nil (h : c.SpellsMove on lines) (hcount : c.count ≠ 0) : lines ≠ [] := by
  rintro rfl
  rw [SpellsMove, List.forall₂_nil_right_iff, List.range_eq_nil] at h
  exact hcount h

omit [IsStrictOrderedRing α] in
theorem isPiece_piece (k : ℕ) : c.IsPiece on k (c.piece k) := ⟨.refl _, rfl, rfl, rfl, fun _ _ => rfl⟩

/-- A piece is spelt by the line that is written for it. -/
theorem IsPiece.spellsPiece (h : c.IsPiece on k b) (hfrom : c.source.FromText)
    (hframe : c.source.machineFrame = false) {format : NumberFormat} (hplaces : c.places = format.decimalPlaces)
    (e : Emitted α) : c.SpellsPiece on k (b.reread format e) := by
  have hm : b.modified = true := h.edit.modified rfl
  have hset : b.motion ≠ .unset := by simp [h.motion]
  by_cases hk : k = 1
  · have hextra : b.extra = c.source.extra := by
      rw [h.edit.extra, piece, if_pos hk]
    have hfrom' : b.FromText :=
      hfrom.of_eq h.edit.text hextra h.edit.machineFrame h.edit.call h.edit.programEnd (by simp [hm])
    have hspells := hfrom'.spells (h.edit.machineFrame.trans hframe) format e
    have htext : b.text = c.source.text := h.edit.text
    constructor
    case codes => rw [hspells.codes, htext, if_pos hk]
    case distance => exact fun absolute => by rw [hspells.distance, htext, if_pos hk]
    case motion => exact fun m => (hspells.motion hm hset m).trans h.motion
    case word =>
      intro d hd hgrid
      rw [← h.axes d hd, hplaces] at hgrid
      rw [hspells.word d.axis hgrid, h.axes d hd]
    case i => exact hspells.i h.i
    case j => exact hspells.j h.j
    case machineFrame => exact hspells.machineFrame
    case unmarked => exact htext ▸ hspells.unmarked
  · have hextra : b.extra = {} := by
      rw [h.edit.extra, piece, if_neg hk]
    have hspells := (Block.fromText_stripped hm).spells rfl format e
    rw [Block.reread_stripped hm hextra] at hspells
    have hwords : wordsOf b.stripped.text = [] := by
      change wordsOf "" = []
      decide
    constructor
    case codes => rw [hspells.codes, LineCodes.ofLine_eq, hwords, if_neg hk, List.foldl_nil]
    case distance => exact fun absolute => by rw [hspells.distance, hwords, if_neg hk, Word.latest_nil]
    case motion => exact fun m => (hspells.motion hm hset m).trans h.motion
    case word =>
      intro d hd hgrid
      rw [← h.axes d hd, hplaces] at hgrid
      rw [hspells.word d.axis hgrid, Block.stripped, h.axes d hd]
    case i => exact hspells.i h.i
    case j => exact hspells.j h.j
    case machineFrame => exact hspells.machineFrame
    case unmarked =>
      intro _
      refine hspells.unmarked ?_
      change Markers.onLine _ "" = false
      decide

/-! ### Travelling along pieces -/

variable {d : PathAxis}

omit [IsStrictOrderedRing α] in
theorem on_ticks (c : Cut α) (hk : k ≠ 0) (d : PathAxis) :
    (c.ticks k).on d =
      Scalar.round (((c.points k).on d - c.source.place.origin.on d) * Scalar.scale c.places) := by
  rw [ticks, if_neg hk]
  cases d <;> rfl

omit [IsStrictOrderedRing α] in
theorem on_ticks_zero (c : Cut α) (d : PathAxis) : (c.ticks 0).on d = 0 := by
  have hzero : (Scalar.ofNat 0 : α) = 0 := Nat.cast_zero
  rw [← hzero, ticks, if_pos rfl]
  cases d <;> rfl

omit [IsStrictOrderedRing α] in
theorem exists_ticks_eq (c : Cut α) (k : ℕ) (d : PathAxis) : ∃ n : ℤ, (c.ticks k).on d = n := by
  by_cases hk : k = 0
  · exact ⟨0, by rw [hk, on_ticks_zero, Int.cast_zero]⟩
  · rw [on_ticks c hk]
    exact exists_round_eq _

omit [IsStrictOrderedRing α] in
/-- A relative piece is written with the difference of two counts. -/
theorem on_written_of_relative (hrelative : c.source.absolute = false) (k : ℕ) (d : PathAxis) :
    (c.written k).on d = ((c.ticks k).on d - (c.ticks (k - 1)).on d) / Scalar.scale c.places := by
  rw [written, if_neg (by simp [hrelative])]
  cases d <;> rfl

omit [IsStrictOrderedRing α] in
theorem on_written_of_absolute (habsolute : c.source.absolute = true) (k : ℕ) :
    c.written k = c.points k := by
  rw [written, if_pos habsolute]

theorem onGrid_written (hrelative : c.source.absolute = false) (k : ℕ) (d : PathAxis) :
    OnGrid c.places ((c.written k).on d) := by
  obtain ⟨m, hm⟩ := c.exists_ticks_eq k d
  obtain ⟨n, hn⟩ := c.exists_ticks_eq (k - 1) d
  rw [on_written_of_relative hrelative, hm, hn, ← Int.cast_sub]
  exact onGrid_intCast_div _

/-- The modes after `k` pieces: those of the move from the first piece on. -/
structure Ready (c : Cut α) (k : ℕ) (m : Modal α) : Prop where
  absolute : (if k = 0 then latest (Word.distance? α) m.absolute (wordsOf c.source.text) else m.absolute) =
    c.source.absolute
  motion : k ≠ 0 → m.motion = .linear

/-- The coordinate after `k` pieces that were begun at `start`. Displacements add up to the count so far;
absolute words lead to the points of the move that are on the grid. -/
structure Along (c : Cut α) (d : PathAxis) (start : α) (k : ℕ) (v : α) : Prop where
  idle : c.writes d = false → v = start
  relative : c.writes d = true → c.source.absolute = false →
    v = start + (c.ticks k).on d / Scalar.scale c.places
  absolute : c.writes d = true → c.source.absolute = true → k ≠ 0 → OnGrid c.places ((c.points k).on d) →
    v = (c.points k).on d

variable {line : String} {m : Modal α} {start : α}

omit [IsStrictOrderedRing α] in
theorem Ready.after (h : c.Ready k m) (hline : c.SpellsPiece on (k + 1) line) :
    c.Ready (k + 1) (m.after line) := by
  refine ⟨?_, fun _ => hline.motion _⟩
  rw [if_neg k.succ_ne_zero, ← h.absolute, Modal.after, hline.distance]
  simp only [Nat.add_eq_right]

omit [IsStrictOrderedRing α] in
theorem along_zero (c : Cut α) (d : PathAxis) (start : α) : c.Along d start 0 start := by
  refine ⟨fun _ => rfl, fun _ _ => ?_, fun _ _ h => absurd rfl h⟩
  rw [on_ticks_zero, zero_div, add_zero]

/-- One more piece. -/
theorem Along.travel {s : Modal α × Position α} (h : c.Along d start k (s.2.on d)) (hready : c.Ready k s.1)
    (hline : c.SpellsPiece on (k + 1) line) (hd : on d) (machine : Machine α) :
    c.Along d start (k + 1) ((PartProgram.travel machine s line).1.2.on d) := by
  have habsolute : (s.1.after line).absolute = c.source.absolute := by
    have hafter := (hready.after hline).absolute
    rwa [if_neg k.succ_ne_zero] at hafter
  have hword := hline.word d hd
  rw [get_axes] at hword
  rw [travel_on hline.machineFrame, habsolute]
  cases hwrites : c.writes d with
  | false =>
      rw [hwrites, if_neg (by simp)] at hword
      rw [hword (by simp)]
      exact ⟨fun _ => h.idle hwrites, by simp [hwrites], by simp [hwrites]⟩
  | true =>
      rw [hwrites, if_pos rfl] at hword
      refine ⟨by simp [hwrites], fun _ hrelative => ?_, fun _ habs _ hgrid => ?_⟩
      · rw [hword (by simpa using onGrid_written hrelative _ _), h.relative hwrites hrelative]
        simp only [reach, Option.elim, hrelative, Bool.false_eq_true, if_false]
        rw [on_written_of_relative hrelative, Nat.add_sub_cancel]
        ring
      · rw [on_written_of_absolute habs] at hword
        rw [hword (by simpa using hgrid), habs]
        rfl

/-- A row of pieces. -/
theorem travel_pieces {n : ℕ} {lines : List String} {s : Modal α × Position α} {start : PathAxis → α}
    (h : List.Forall₂ (fun k line => c.SpellsPiece on (k + 1) line) (List.range' k n) lines)
    (hready : c.Ready k s.1) (halong : ∀ d, on d → c.Along d (start d) k (s.2.on d)) (machine : Machine α) :
    let t := (pass (PartProgram.travel machine) s lines).1
    c.Ready (k + n) t.1 ∧ ∀ d, on d → c.Along d (start d) (k + n) (t.2.on d) := by
  induction n generalizing k lines s with
  | zero =>
      obtain rfl := List.forall₂_nil_left_iff.mp h
      exact ⟨hready, halong⟩
  | succ n ih =>
      rw [List.range'_succ] at h
      obtain ⟨line, rest, hline, hrest, rfl⟩ := List.forall₂_cons_left_iff.mp h
      have hshift : k + 1 + n = k + (n + 1) := by omega
      have htail := ih hrest (s := (PartProgram.travel machine s line).1)
        (by rw [travel_modal]; exact hready.after hline)
        fun d hd => (halong d hd).travel hready hline hd machine
      rw [hshift] at htail
      rw [pass_cons]
      exact htail

/-- The cut of a block that has been placed, up to the end of its move. -/
structure OfMove (c : Cut α) : Prop where
  count : c.count ≠ 0
  finish : c.points c.count = c.source.place.target
  placed : ∀ d, c.source.place.target.on d =
    reach c.source.absolute (c.source.axes.get d.axis) (c.source.place.origin.on d)

omit [IsStrictOrderedRing α] in
/-- An axis without a word is written only in the plane, where the pieces need both coordinates. -/
theorem OfMove.ne_z (h : c.OfMove) (hwrites : c.writes d = true) (hword : c.source.axes.get d.axis = none) :
    d ≠ .z := by
  rintro rfl
  have hplaced := h.placed .z
  rw [hword] at hplaced
  change c.source.z = none at hword
  rw [writes, hword, Option.isSome_none, Bool.false_or, bne_iff_ne] at hwrites
  exact hwrites hplaced

/-- The pieces end where the words of the move lead to from where they are begun. A missing absolute word
is filled in from the move, so that they have to be begun where it has this coordinate. -/
theorem Along.eq_reach {v : α} (h : c.Along d start c.count v) (hmove : c.OfMove)
    (hword : ∀ w ∈ c.source.axes.get d.axis, OnGrid c.places w) (hstart : OnGrid c.places start)
    (hsame : c.source.absolute = true → c.source.axes.get d.axis = none → d ≠ .z →
      c.source.place.target.on d = start) :
    v = reach c.source.absolute (c.source.axes.get d.axis) start := by
  have hplaced := hmove.placed d
  cases hwrites : c.writes d with
  | false =>
      rw [h.idle hwrites]
      cases d with
      | x | y => simp [writes] at hwrites
      | z =>
          have hnone : c.source.axes.get PathAxis.z.axis = none := by
            simp only [writes, Bool.or_eq_false_iff, Option.isSome_eq_false_iff,
              Option.isNone_iff_eq_none] at hwrites
            exact hwrites.1
          rw [hnone]
          rfl
  | true =>
      cases habsolute : c.source.absolute with
      | false =>
          have hdifference : c.source.place.target.on d - c.source.place.origin.on d =
              (c.source.axes.get d.axis).getD 0 := by
            rw [hplaced, habsolute]
            cases c.source.axes.get d.axis <;> simp [reach]
          have hgrid : OnGrid c.places ((c.source.axes.get d.axis).getD 0) := by
            cases hw : c.source.axes.get d.axis with
            | none => exact onGrid_zero
            | some w => exact hword w hw
          rw [h.relative hwrites habsolute, on_ticks c hmove.count, hmove.finish, hdifference,
            round_mul_scale_div hgrid]
          cases c.source.axes.get d.axis <;> simp [reach]
      | true =>
          have hend := h.absolute hwrites habsolute hmove.count
          rw [hmove.finish] at hend
          cases hw : c.source.axes.get d.axis with
          | none =>
              have htarget := hsame habsolute hw (hmove.ne_z hwrites hw)
              rw [htarget] at hend
              exact hend hstart
          | some w =>
              rw [hplaced, hw, habsolute] at hend
              exact hend (hword w hw)

end Cut

/-! ### Lines and the lines that stand for them -/

omit [IsStrictOrderedRing α] in
theorem onGrid_reach {places : ℕ} {word : Option α} {v : α} (hword : ∀ w ∈ word, OnGrid places w)
    (hv : OnGrid places v) (absolute : Bool) : OnGrid places (reach absolute word v) := by
  cases word with
  | none => exact hv
  | some w => cases absolute with
    | true => exact hword w rfl
    | false => exact hv.add (hword w rfl)

omit [IsStrictOrderedRing α] in
/-- If the words for an axis are on the grid, then so are those of everything that runs. -/
theorem Program.onGrid_executed {lines : List String} {settings : Settings α} {machine : Machine α} {places : ℕ}
    {d : PathAxis}
    (h : ∀ b ∈ (ofLines lines settings machine).lines, ∀ v ∈ b.axes.get d.axis, OnGrid places v) {b : Block α}
    (hb : b ∈ (ofLines lines settings machine).executed) :
    ∀ v ∈ (lineWords b.text : LineWords α).axes.get d.axis, OnGrid places v := by
  obtain ⟨-, -, htext | ⟨line, hline, htext⟩⟩ := exists_line_of_mem_executed hb
  · have hwords : wordsOf "" = [] := by decide
    rw [htext, lineWords, hwords]
    simp [AxisWords.none]
  · obtain ⟨haxes, -, -⟩ := (fromText_ofLines lines settings machine line hline).unmodified
      (modified_place (modified_asRead lines settings) machine line hline)
    rw [← htext, ← haxes]
    exact h line hline

/-- Two tools on their way in the same distance mode, at the same place on the given axes. -/
structure Agree (places : ℕ) (on : PathAxis → Prop) (s s' : Modal α × Position α) : Prop where
  absolute : s'.1.absolute = s.1.absolute
  position : ∀ d, on d → s'.2.on d = s.2.on d
  grid : ∀ d, on d → OnGrid places (s.2.on d)

variable {places : ℕ} {on : PathAxis → Prop} {s s' : Modal α × Position α} {text : String}

omit [IsStrictOrderedRing α] in
/-- A line of numbers on the grid keeps the tools together if the other line leads to the same place. -/
theorem Agree.travel (h : Agree places on s s') (hframe : (lineWords text : LineWords α).machineFrame = false)
    (hgrid : ∀ d, on d → ∀ w ∈ (lineWords text : LineWords α).axes.get d.axis, OnGrid places w)
    {t' : Modal α × Position α} (habsolute : t'.1.absolute = (s.1.after text).absolute)
    (hposition : ∀ d, on d →
      t'.2.on d = reach (s.1.after text).absolute ((lineWords text).axes.get d.axis) (s'.2.on d))
    (machine : Machine α) : Agree places on (PartProgram.travel machine s text).1 t' where
  absolute := by rw [travel_modal, habsolute]
  position := by
    intro d hd
    rw [travel_on hframe, hposition d hd, h.position d hd]
  grid := by
    intro d hd
    rw [travel_on hframe]
    exact onGrid_reach (hgrid d hd) (h.grid d hd) _

omit [IsStrictOrderedRing α] in
/-- A line that spells a block with the words of another line takes its tool along. -/
theorem Block.Spells.agree {b : Block α} {line : String} (hline : b.Spells places line) (htext : b.text = text)
    (haxes : ∀ d, on d → b.axes.get d.axis = (lineWords text).axes.get d.axis)
    (hframe : (lineWords text : LineWords α).machineFrame = false)
    (hgrid : ∀ d, on d → ∀ w ∈ (lineWords text : LineWords α).axes.get d.axis, PartProgram.OnGrid places w)
    (h : Agree places on s s') (machine : Machine α) :
    Agree places on (travel machine s text).1 (travel machine s' line).1 := by
  have habsolute : (s'.1.after line).absolute = (s.1.after text).absolute := by
    rw [Modal.after, Modal.after, hline.distance, htext, h.absolute]
  refine h.travel hframe hgrid (by rw [travel_modal, habsolute]) ?_ machine
  intro d hd
  have hword := hline.word d.axis
  rw [haxes d hd] at hword
  rw [travel_on hline.machineFrame, habsolute, hword (hgrid d hd)]

/-- The pieces of a move take their tool along with the move. In absolute coordinates the move has to end
where it ended when it was cut. -/
theorem Cut.OfMove.agree {c : Cut α} (hmove : c.OfMove)
    (haxes : c.source.axes = (lineWords c.source.text).axes)
    (hframe : (lineWords c.source.text : LineWords α).machineFrame = false)
    (hgrid : ∀ d, on d → ∀ w ∈ (lineWords c.source.text : LineWords α).axes.get d.axis, OnGrid c.places w)
    {lines : List String} (hlines : c.SpellsMove on lines)
    (h : Agree c.places on s s') (machine : Machine α)
    (habsolute : (s.1.after c.source.text).absolute = c.source.absolute)
    (hsame : c.source.absolute = true → ∀ d, on d → d ≠ .z →
      (travel machine s c.source.text).1.2.on d = c.source.place.target.on d) :
    Agree c.places on (travel machine s c.source.text).1 (pass (travel machine) s' lines).1 ∧
      (pass (travel machine) s' lines).1.1.motion = .linear := by
  rw [Cut.SpellsMove, List.range_eq_range'] at hlines
  have hready : c.Ready 0 s'.1 := by
    refine ⟨?_, fun h => absurd rfl h⟩
    rw [if_pos rfl, h.absolute, ← habsolute, Modal.after]
  obtain ⟨hend, halong⟩ := c.travel_pieces hlines hready (fun d _ => c.along_zero d (s'.2.on d)) machine
  rw [Nat.zero_add] at hend halong
  have hmode := hend.absolute
  rw [if_neg hmove.count, ← habsolute] at hmode
  refine ⟨h.travel hframe hgrid hmode ?_ machine, hend.motion hmove.count⟩
  intro d hd
  rw [habsolute, ← haxes]
  refine (halong d hd).eq_reach hmove (haxes ▸ hgrid d hd) (h.position d hd ▸ h.grid d hd) ?_
  intro habs hnone hz
  rw [← hsame habs d hd hz, travel_on hframe, ← haxes, hnone, h.position d hd]
  rfl

end PartProgram
