import PartProgram.Proofs.Block.Comments
import PartProgram.Proofs.Edit.Rewriting
import PartProgram.Proofs.Number.Formatting

/-! # Lines that survive being written anew

A block that has been read off a line is written from its words, possibly with other numbers on its path, and
the new line is read where the first one has been read. It is the same block again, with its numbers rounded
to the last written place.
-/

namespace PartProgram

open Word (latest)

section

variable {α : Type} [Scalar α]

/-! ### Speeds that have been read -/

theorem Word.isFinite_of_number? {w : Word} {v : α} (h : w.number? = some v) : Scalar.isFinite v = true :=
  (Option.filter_eq_some_iff.mp h).2

/-- The latest number of some words is finite if the one before them is. -/
theorem Word.isFinite_latest {f : Word → Option α} (hf : ∀ (w : Word) (v : α), f w = some v → w.number? = some v)
    {v : α} (hv : Scalar.isFinite v = true) (ws : List Word) : Scalar.isFinite (latest f v ws) = true := by
  rcases Word.latest_eq_or f v ws with h | ⟨w, -, h⟩
  · rwa [h]
  · exact Word.isFinite_of_number? (hf w _ h)

/-- A motion that is unset has not been selected by any word. -/
theorem Word.eq_unset_of_latest {m : Motion} {ws : List Word} (h : latest (Word.motion? α) m ws = .unset) :
    m = .unset := by
  rcases Word.latest_eq_or (Word.motion? α) m ws with heq | ⟨w, -, hw⟩
  · rwa [heq] at h
  · rw [h] at hw
    exact absurd hw w.motion?_ne_unset

namespace Block

variable (number : ℕ) (line : String) {m : Modal α}

theorem isFinite_feed_read (hm : Scalar.isFinite m.feed = true) : Scalar.isFinite (read number line m).2.feed = true := by
  rw [read_snd]
  change Scalar.isFinite (latest Word.feed? m.feed (wordsOf line)) = true
  refine Word.isFinite_latest (fun w v hw => ?_) hm _
  rw [Word.feed?] at hw
  split at hw
  · exact hw
  · simp at hw

theorem isFinite_spindle_read (hm : Scalar.isFinite m.spindle = true) :
    Scalar.isFinite (read number line m).2.spindle = true := by
  rw [read_snd]
  change Scalar.isFinite (latest Word.spindle? m.spindle (wordsOf line)) = true
  refine Word.isFinite_latest (fun w v hw => ?_) hm _
  rw [Word.spindle?] at hw
  split at hw
  · exact hw
  · simp at hw

/-! ### Words without a part in the path -/

variable (format : NumberFormat) (e : Emitted α) (b : Block α)

/-- A changed line has the sequence number of its text. -/
theorem latest_sequence?_rewritten :
    latest Word.sequence? none (b.rewritten format e) = latest Word.sequence? none (wordsOf b.text) := by
  have hmotion : b.motionWord?.toList.filter (·.letter == 'N') = [] := by
    apply List.filter_eq_nil_iff.mpr
    intro w hw
    simp [b.letter_of_mem_motionWord? w hw]
  have hkept : ((wordsOf b.text).filter (Word.isKeptG α)).filter (·.letter == 'N') = [] := by
    apply List.filter_eq_nil_iff.mpr
    intro w hw
    simp [(Word.of_isKeptG (List.mem_filter.mp hw).2).1]
  have hnumbers := b.filter_map_numbers_eq_nil format e (p := (·.letter == 'N')) fun w hw => by
    simpa using hw.ne.2.2
  have hothers : ((wordsOf b.text).filter Word.isOther).filter (·.letter == 'N') = [] := by
    apply List.filter_eq_nil_iff.mpr
    intro w hw
    simpa using (Word.ne_of_isOther (List.mem_filter.mp hw).2).2
  have hsequence : ((wordsOf b.text).filter (·.letter == 'N')).getLast?.toList.filter (·.letter == 'N') =
      ((wordsOf b.text).filter (·.letter == 'N')).getLast?.toList := by
    apply List.filter_eq_self.mpr
    intro w hw
    simp [letter_of_mem_sequence w hw]
  rw [Word.latest_sequence?, Word.latest_sequence?]
  simp only [rewritten, List.filter_append, hsequence, hmotion, hkept, hnumbers, hothers, List.append_nil]
  cases ((wordsOf b.text).filter (·.letter == 'N')).getLast? <;> rfl

/-- A changed line has the `G` words of its text that select no motion. -/
theorem filter_rewritten_isKeptG [Scalar.Coded α] :
    (b.rewritten format e).filter (Word.isKeptG α) = (wordsOf b.text).filter (Word.isKeptG α) := by
  have hG : ∀ w : Word, (w.isKeptG α && w.letter == 'G') = w.isKeptG α := by
    intro w
    cases hw : w.isKeptG α with
    | false => rfl
    | true => simp [(Word.of_isKeptG hw).1]
  have hmotion : b.motionWord?.toList.filter (Word.isKeptG α) = [] := by
    apply List.filter_eq_nil_iff.mpr
    intro w hw
    simp [Word.isKeptG, motion?_motionWord? w (Option.mem_toList.mp hw)]
  have hfilter := congrArg (List.filter (Word.isKeptG α)) (filter_rewritten_G format e b)
  rw [List.filter_filter, List.filter_append, List.filter_filter, hmotion] at hfilter
  simpa only [hG, Bool.and_self, List.nil_append] using hfilter

/-- A changed line has the words of its text that have no part in the path, and its comments. -/
theorem FromText.extra_rewritten [Scalar.Printed α] [Scalar.Coded α] {b : Block α} (h : b.FromText)
    (hfinite : b.IsFinite) :
    let line := String.ofList (spelled (b.rewritten format e) (Content.ofLine b.text).comments)
    ({ (lineWords line : LineWords α).extra with comment := (Content.ofLine line).comment? } : ExtraWords) = b.extra := by
  have hproper := proper_of_mem_rewritten format e hfinite
  have hcomment := Content.comments_ofLine_spelled hproper b.text
  have hwords := wordsOf_spelled hproper (Content.comments_ofLine b.text)
  have hsequence := latest_sequence?_rewritten format e b
  have hkept := filter_rewritten_isKeptG format e b
  have hothers := filter_rewritten_isOther format e b
  rw [h.extra]
  simp only [lineWords, LineWords.foldl_add, hwords, hsequence, hkept, hothers, Content.comment?, hcomment]

/-- A changed line does not end in a carriage return. -/
theorem FromText.getLast?_write [Scalar.Printed α] {b : Block α} (h : b.FromText) (hm : b.modified = true)
    (hfinite : b.IsFinite) : (b.write format e).2.toList.getLast? ≠ some '\r' := by
  intro hlast
  have htrim := trim_spelled (proper_of_mem_rewritten format e hfinite) (Content.comments_ofLine b.text)
    (Content.isBlank_of_mem_comments_ofLine b.text)
  rw [h.write_eq hm, String.toList_ofList, ← htrim] at hlast
  have hblank := Text.isBlank_of_mem_getLast?_trim _ '\r' hlast
  simp [Text.isBlank] at hblank

/-! ### The line read again -/

/-- The modes and codes of the block are the ones that its text has under the modes `m`. -/
structure ReadUnder (m : Modal α) (b : Block α) : Prop where
  motion : b.motion = latest (Word.motion? α) m.motion (wordsOf b.text)
  absolute : b.absolute = latest (Word.distance? α) m.absolute (wordsOf b.text)
  label : b.label = (LineCodes.ofLine α b.text).o
  returns : b.returns = ((LineCodes.ofLine α b.text).m == some 99)

theorem readUnder_read (m : Modal α) : ReadUnder m (read number line m).2 := by
  constructor <;> simp [read_snd, inert, Modal.after]

theorem ReadUnder.motion_eq {b : Block α} (h : b.ReadUnder m) (hunset : b.motion = .unset) : m.motion = .unset :=
  Word.eq_unset_of_latest (h.motion.symm.trans hunset)

/-- `r` is the block `b` again, read under the modes `m` off a line with a given number of places. A speed is
on this line only if it differs from the one in effect. -/
structure RestatedBy (places : ℕ) (m : Modal α) (b r : Block α) : Prop where
  motion : r.motion = b.motion
  absolute : r.absolute = b.absolute
  machineFrame : r.machineFrame = b.machineFrame
  call : r.call = b.call
  label : r.label = b.label
  returns : r.returns = b.returns
  programEnd : r.programEnd = b.programEnd
  extra : r.extra = b.extra
  axes : ∀ axis, r.axes.get axis = (b.axes.get axis).map (Scalar.rounded places)
  i : r.i = b.i.map (Scalar.rounded places)
  j : r.j = b.j.map (Scalar.rounded places)
  feed : r.feed = if Scalar.abs (m.feed - b.feed) < Emitted.tolerance then m.feed else Scalar.rounded places b.feed
  spindle : r.spindle =
    if Scalar.abs (m.spindle - b.spindle) < Emitted.tolerance then m.spindle else Scalar.rounded places b.spindle

theorem RestatedBy.of_marked {places : ℕ} {b r : Block α}
    (h : RestatedBy places m { b with modified := true } r) : b.RestatedBy places m r :=
  ⟨h.motion, h.absolute, h.machineFrame, h.call, h.label, h.returns, h.programEnd, h.extra, h.axes, h.i, h.j, h.feed,
    h.spindle⟩

theorem write_marked : (write format e { b with modified := true }).2 = (b.draft e).1.render format := rfl

/-- A changed block is written so that it can be read again. -/
theorem FromText.restatedBy [Scalar.Printed α] [Scalar.Coded α] [Scalar.Legible α format.decimalPlaces] {b : Block α}
    (h : b.FromText) (hunder : b.ReadUnder m) (hm : b.modified = true) (hfinite : b.IsFinite) :
    b.RestatedBy format.decimalPlaces m (read number (b.write format ⟨some m.feed, some m.spindle⟩).2 m).2 := by
  obtain ⟨e, he⟩ : ∃ e : Emitted α, e = ⟨some m.feed, some m.spindle⟩ := ⟨_, rfl⟩
  have hextra := h.extra_rewritten format e hfinite
  rw [← h.write_eq hm] at hextra
  have hwords := h.wordsOf_write format e hm hfinite
  have hcodes : LineCodes.ofLine α (b.write format e).2 = LineCodes.ofLine α b.text := by
    rw [LineCodes.ofLine_eq, LineCodes.ofLine_eq, hwords, foldl_steer_rewritten]
  have hspeed : ∀ (last v : α) (places : ℕ), (if Emitted.differs (some last) v then Scalar.rounded places v else last) =
      if Scalar.abs (last - v) < Emitted.tolerance then last else Scalar.rounded places v := by
    intro last v places
    by_cases hsame : Scalar.abs (last - v) < Emitted.tolerance <;> simp [Emitted.differs, hsame]
  rw [← he]
  generalize (b.write format e).2 = line at *
  have hlineWords : (lineWords line : LineWords α) = (b.rewritten format e).foldl LineWords.add {} := by
    rw [lineWords, hwords]
  rw [read_snd, ← lineWords]
  constructor
  case motion =>
    change latest (Word.motion? α) m.motion (wordsOf line) = b.motion
    rw [hwords, latest_motion?_rewritten]
    split
    · rename_i hunset
      rw [hunset, hunder.motion_eq hunset]
    · rfl
  case absolute =>
    change latest (Word.distance? α) m.absolute (wordsOf line) = b.absolute
    rw [hwords, latest_distance?_rewritten, hunder.absolute]
  case machineFrame =>
    have hframe := h.any_isMachineFrame_rewritten format e
    simp [hlineWords, LineWords.foldl_add, hframe]
  case call => rw [h.call, ← hcodes]
  case label => rw [hunder.label, ← hcodes]
  case returns => rw [hunder.returns, ← hcodes]
  case programEnd => rw [h.programEnd, ← hcodes]; rfl
  case extra => exact hextra
  case axes =>
    intro axis
    have hread := latest_written?_rewritten_of_isFinite format e (.inl ⟨axis, rfl⟩) (filter_numbers_axis e b axis)
      (hfinite.axes axis)
    simp [hlineWords, LineWords.foldl_add, hread]
  case i =>
    have hread := latest_written?_rewritten_of_isFinite format e (.inr (.inl rfl)) (filter_numbers e b).1 hfinite.i
    simp [hlineWords, LineWords.foldl_add, hread]
  case j =>
    have hread := latest_written?_rewritten_of_isFinite format e (.inr (.inr (.inl rfl))) (filter_numbers e b).2.1
      hfinite.j
    simp [hlineWords, LineWords.foldl_add, hread]
  case feed =>
    change latest Word.feed? m.feed (wordsOf line) = _
    rw [hwords, latest_feed?_rewritten_eq_rounded format e hfinite.feed, he, hspeed]
  case spindle =>
    change latest Word.spindle? m.spindle (wordsOf line) = _
    rw [hwords, latest_spindle?_rewritten_eq_rounded format e hfinite.spindle, he, hspeed]

/-- Other numbers on the path change nothing about the rest of the line. -/
theorem FromText.restatedBy_draft [Scalar.Printed α] [Scalar.Coded α] [Scalar.Legible α format.decimalPlaces]
    {b : Block α} (h : b.FromText) (hunder : b.ReadUnder m) {axes : AxisWords α} {i j : Option α}
    (hfinite : ({ b with axes, i, j } : Block α).IsFinite) :
    ({ b with axes, i, j } : Block α).RestatedBy format.decimalPlaces m (read number
      ((({ b with axes, i, j } : Block α).draft ⟨some m.feed, some m.spindle⟩).1.render format) m).2 := by
  have hfrom : ({ b with axes, i, j, modified := true } : Block α).FromText :=
    h.of_eq rfl rfl rfl rfl rfl (by simp)
  have hunder' : ({ b with axes, i, j, modified := true } : Block α).ReadUnder m :=
    ⟨hunder.motion, hunder.absolute, hunder.label, hunder.returns⟩
  have hrestated := hfrom.restatedBy number format hunder' rfl
    ⟨hfinite.axes, hfinite.i, hfinite.j, hfinite.feed, hfinite.spindle⟩
  rw [write_marked format _ { b with axes, i, j }] at hrestated
  exact hrestated.of_marked

end Block

end

/-! ### Floats -/

namespace Block

/-- A line is read under finite modes, its numbers on the path are replaced by finite ones, and it is written
anew with at most ten places where the speeds of these modes are in effect. The new line is read under the
same modes as the same block, with its numbers rounded. -/
theorem restatedBy_read (number : ℕ) (line : String) {m : Modal Float} (hfeed : m.feed.isFinite = true)
    (hspindle : m.spindle.isFinite = true) {axes : AxisWords Float} {i j : Option Float}
    (haxes : ∀ axis, ∀ v ∈ axes.get axis, v.isFinite = true) (hi : ∀ v ∈ i, v.isFinite = true)
    (hj : ∀ v ∈ j, v.isFinite = true) {format : NumberFormat} (hplaces : format.decimalPlaces ≤ 10) (number' : ℕ) :
    let b := { (read number line m).2 with axes, i, j }
    b.RestatedBy format.decimalPlaces m
      (read number' ((b.draft ⟨some m.feed, some m.spindle⟩).1.render format) m).2 := by
  intro b
  have := Binary64.legible (hplaces.trans (by norm_num))
  exact (fromText_read number line m).restatedBy_draft number' format (readUnder_read number line m)
    ⟨haxes, hi, hj, isFinite_feed_read number line hfeed, isFinite_spindle_read number line hspindle⟩

/-- Words in any order and an open comment, with a new coordinate that is no multiple of the last place. -/
theorem restatedBy_read_cut :
    let m : Modal Float := { Modal.initial with feed := 1000 }
    let axes : AxisWords Float := AxisWords.none.set .x (some 0.12345)
    let b := { (read 0 "g2 M8 x7 G61 F100 i1 N5 (cut " m).2 with axes, i := some 2.5, j := none }
    let line := (b.draft ⟨some m.feed, some m.spindle⟩).1.render {}
    (m.feed.isFinite = true ∧ m.spindle.isFinite = true ∧ ∀ axis, ∀ v ∈ axes.get axis, v.isFinite = true) ∧
      line = "N5 G2 G61 X0.123 I2.5 F100 M8 (cut" ∧ b.RestatedBy 3 m (read 1 line m).2 := by
  intro m axes b line
  have hfeed : m.feed.isFinite = true := by decide +kernel
  have hspindle : m.spindle.isFinite = true := by decide +kernel
  have haxes : ∀ axis, ∀ v ∈ axes.get axis, v.isFinite = true := by
    have hall : ∀ axis ∈ Axis.all, ∀ v ∈ axes.get axis, v.isFinite = true := by decide +kernel
    exact fun axis => hall axis axis.mem_all
  have hi : ∀ v ∈ some (2.5 : Float), v.isFinite = true := by decide +kernel
  have hj : ∀ v ∈ (none : Option Float), v.isFinite = true := by simp
  have hplaces : ({} : NumberFormat).decimalPlaces ≤ 10 := by decide
  exact ⟨⟨hfeed, hspindle, haxes⟩, by decide +kernel,
    restatedBy_read 0 "g2 M8 x7 G61 F100 i1 N5 (cut " hfeed hspindle haxes hi hj hplaces 1⟩

end Block

end PartProgram
