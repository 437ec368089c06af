import PartProgram.Proofs.Block.Spelling
import PartProgram.Proofs.Edit.Lines
import PartProgram.Proofs.Number.Legible
import PartProgram.Proofs.Program.Order

/-! # Lines written anew

A changed line is written from its words. Read again, it selects the motion of its block, has the
words that the block has, and keeps the distance mode and the codes of the line that it replaces.
-/

namespace PartProgram

open Word (latest)

section

variable {α : Type} [Scalar α]

/-! ### Blocks and their texts -/

/-- The words of a line that are no modes. -/
def lineWords (line : String) : LineWords α := (wordsOf line).foldl LineWords.add {}

/-- The words of the block that have no part in the path are those of its text, and as long as the
block is unchanged, so are all others. -/
structure Block.FromText (b : Block α) : Prop where
  extra : b.extra = { (lineWords b.text : LineWords α).extra with comment := (Content.ofLine b.text).comment? }
  machineFrame : b.machineFrame = (lineWords b.text : LineWords α).machineFrame
  call : b.call = (LineCodes.ofLine α b.text).call?
  programEnd : b.programEnd = (LineCodes.ofLine α b.text).endsProgram
  unmodified : b.modified = false →
    b.axes = (lineWords b.text).axes ∧ b.i = (lineWords b.text).i ∧ b.j = (lineWords b.text).j

/-- The numbers on the path of a line are those written last. -/
theorem numbers_lineWords (line : String) :
    (∀ axis, (lineWords line : LineWords α).axes.get axis = latest (Word.written? α axis.letter) none (wordsOf line)) ∧
      (lineWords line : LineWords α).i = latest (Word.written? α 'I') none (wordsOf line) ∧
      (lineWords line : LineWords α).j = latest (Word.written? α 'J') none (wordsOf line) := by
  rw [lineWords, LineWords.foldl_add]
  exact ⟨fun _ => rfl, rfl, rfl⟩

namespace Block

/-- The numbers of an unchanged block are those of its text. -/
theorem FromText.written {b : Block α} (h : b.FromText) (hm : b.modified = false) :
    (∀ axis, b.axes.get axis = latest (Word.written? α axis.letter) none (wordsOf b.text)) ∧
      b.i = latest (Word.written? α 'I') none (wordsOf b.text) ∧
      b.j = latest (Word.written? α 'J') none (wordsOf b.text) := by
  obtain ⟨haxes, hi, hj⟩ := h.unmodified hm
  rw [haxes, hi, hj]
  exact numbers_lineWords b.text

theorem fromText_read (number : ℕ) (line : String) (m : Modal α) : (read number line m).2.FromText := by
  constructor <;> simp [read_snd, inert, lineWords, LineCodes.endsProgram]

theorem FromText.of_eq {b b' : Block α} (h : b.FromText) (htext : b'.text = b.text)
    (hextra : b'.extra = b.extra) (hframe : b'.machineFrame = b.machineFrame) (hcall : b'.call = b.call)
    (hend : b'.programEnd = b.programEnd)
    (hsame : b'.modified = false → b.modified = false ∧ b'.axes = b.axes ∧ b'.i = b.i ∧ b'.j = b.j) :
    b'.FromText where
  extra := by rw [hextra, htext, h.extra]
  machineFrame := by rw [hframe, htext, h.machineFrame]
  call := by rw [hcall, htext, h.call]
  programEnd := by rw [hend, htext, h.programEnd]
  unmodified := by
    intro hm
    obtain ⟨hm, haxes, hi, hj⟩ := hsame hm
    rw [haxes, hi, hj, htext]
    exact h.unmodified hm

theorem fromText_of_asRead {b : Block α} {n : ℕ} {m : Modal α} (h : b.asRead = (read n b.text m).2) :
    b.FromText := by
  have hfrom : b.asRead.FromText := h ▸ fromText_read n _ m
  exact hfrom.of_eq rfl rfl rfl rfl rfl fun hm => ⟨hm, rfl, rfl, rfl⟩

theorem FromText.edit {b b' : Block α} (h : b.FromText) (hedit : b.EditOf b') : b'.FromText := by
  refine h.of_eq hedit.text hedit.extra hedit.machineFrame hedit.call hedit.programEnd ?_
  intro hm
  obtain ⟨hb, -, haxes, hi, hj⟩ := hedit.same hm
  exact ⟨hb, haxes, hi, hj⟩

end Block

/-! ### The words of a line written anew -/

namespace Block

/-- The word that selects the motion of the block. -/
def motionWord? (b : Block α) : Option Word :=
  b.motion.code?.map fun code => ⟨'G', Nat.toDigits 10 code⟩

/-- The numbers that are written for the block with their letters. -/
def numbers (e : Emitted α) (b : Block α) : List (Char × α) :=
  b.axes.toList.map (fun (axis, v) => (axis.letter, v)) ++ (b.i.map ('I', ·)).toList
    ++ (b.j.map ('J', ·)).toList
    ++ (if Emitted.differs e.feed b.feed then [('F', b.feed)] else [])
    ++ (if Emitted.differs e.spindle b.spindle then [('S', b.spindle)] else [])

/-- The words that are written for a changed block. -/
def rewritten (format : NumberFormat) (e : Emitted α) (b : Block α) : List Word :=
  ((wordsOf b.text).filter (·.letter == 'N')).getLast?.toList ++ b.motionWord?.toList
    ++ (wordsOf b.text).filter (Word.isKeptG α)
    ++ (b.numbers e).map (fun (letter, v) => ⟨letter, (format.render v).toList⟩)
    ++ (wordsOf b.text).filter Word.isOther

/-- The words of a block that is written, and the speeds in effect afterwards. -/
theorem draft_eq (b : Block α) (e : Emitted α) :
    b.draft e =
      ({ sequence := b.extra.sequence
         motion := b.motion.code?.map fun code => s!"G{code}"
         gWords := b.extra.gWords
         axes := b.axes
         i := b.i
         j := b.j
         feed := if Emitted.differs e.feed b.feed then some b.feed else none
         spindle := if Emitted.differs e.spindle b.spindle then some b.spindle else none
         others := b.extra.others
         comment := b.extra.comment },
        ⟨if Emitted.differs e.feed b.feed then some b.feed else e.feed,
          if Emitted.differs e.spindle b.spindle then some b.spindle else e.spindle⟩) := by
  obtain ⟨feed, spindle⟩ := e
  by_cases hf : Emitted.differs feed b.feed <;> by_cases hs : Emitted.differs spindle b.spindle <;>
    simp [draft, Emitted.writeFeed, Emitted.writeSpindle, hf, hs]

end Block

omit [Scalar α] in
/-- The same words once more change nothing. -/
theorem Word.latest_latest {β : Type} (f : Word → Option β) (v : β) (ws : List Word) :
    latest f (latest f v ws) ws = latest f v ws := by
  simp only [latest_eq_getLast?]
  cases (ws.filterMap f).getLast? <;> rfl

theorem Word.latest_sequence? (ws : List Word) :
    latest Word.sequence? none ws = (ws.filter (·.letter == 'N')).getLast?.map Word.text := by
  have hfilter : ws.filterMap Word.sequence? = (ws.filter (·.letter == 'N')).map fun w => some w.text := by
    induction ws with
    | nil => rfl
    | cons w ws ih => by_cases h : w.letter = 'N' <;> simp [Word.sequence?, h, ih]
  rw [Word.latest_eq_getLast?, hfilter, List.getLast?_map]
  cases (ws.filter (·.letter == 'N')).getLast? <;> rfl

theorem intercalate_append_intercalate {comments : List (List Char)} (h : comments ≠ [])
    (chunks : List (List Char)) :
    [' '].intercalate (chunks ++ [[' '].intercalate comments]) = [' '].intercalate (chunks ++ comments) := by
  induction chunks with
  | nil => simp
  | cons chunk chunks ih => simp [intercalate_cons_eq, ih, h]

/-- A changed block is written as its words, spelled with the comments of its text. -/
theorem Block.FromText.write_eq {b : Block α} (h : b.FromText) (hm : b.modified = true)
    (format : NumberFormat) (e : Emitted α) :
    (b.write format e).2 =
      String.ofList (spelled (b.rewritten format e) (Content.ofLine b.text).comments) := by
  have hextra := h.extra
  rw [lineWords, LineWords.foldl_add] at hextra
  have hsequence : b.extra.sequence =
      ((wordsOf b.text).filter (·.letter == 'N')).getLast?.map Word.text := by
    rw [hextra, ← Word.latest_sequence?]
  have hg : b.extra.gWords = ((wordsOf b.text).filter (Word.isKeptG α)).map Word.text := by
    simp [hextra]
  have hothers : b.extra.others = ((wordsOf b.text).filter Word.isOther).map Word.text := by
    simp [hextra]
  have hwords : ((b.draft e).1.words format).map String.toList =
      (b.rewritten format e).map Word.chars ++ b.extra.comment.toList.map String.toList := by
    have hspeed : ∀ (letter : Char) (v : α) (needed : Bool),
        ((if needed then some v else none).map fun v => letter.toString ++ format.render v).toList.map
          String.toList =
        ((if needed then [(letter, v)] else []).map fun (letter, v) =>
          (⟨letter, (format.render v).toList⟩ : Word)).map Word.chars := by
      intro letter v needed
      cases needed <;> simp [Word.chars]
    simp only [draft_eq, Draft.words, rewritten, numbers, motionWord?, hsequence, hg, hothers,
      List.map_append, hspeed]
    have hchars : Word.chars = fun w => w.letter :: w.value := rfl
    have hG : (toString "G").toList = ['G'] := rfl
    simp [Option.toList_map, Function.comp_def, hchars, Word.text, hG]
  have hline : (b.write format e).2 = " ".intercalate ((b.draft e).1.words format) := by
    rw [write, if_pos hm]
    rfl
  apply String.toList_injective
  rw [hline, String.toList_intercalate, hwords, String.toList_ofList, spelled]
  have hcomment : b.extra.comment = (Content.ofLine b.text).comment? := by simp [hextra]
  rw [hcomment, Content.comment?]
  split
  · rename_i hnil
    have hnil : (Content.ofLine b.text).comments = [] := by simpa using hnil
    simp [hnil]
  · rename_i hsome
    have hne : (Content.ofLine b.text).comments ≠ [] := by simpa using hsome
    rw [← intercalate_append_intercalate hne]
    simp [String.toList_intercalate, Function.comp_def]

/-! ### Kinds of words -/

/-- The letter stands before a number of a block. -/
def IsPathLetter (c : Char) : Prop :=
  (∃ axis : Axis, c = axis.letter) ∨ c = 'I' ∨ c = 'J' ∨ c = 'F' ∨ c = 'S'

theorem IsPathLetter.ne {c : Char} (h : IsPathLetter c) : c.isUpper ∧ c ≠ 'G' ∧ c ≠ 'N' := by
  rcases h with ⟨axis, rfl⟩ | rfl | rfl | rfl | rfl
  · cases axis <;> decide
  all_goals decide

theorem IsPathLetter.not_isOther {w : Word} (h : IsPathLetter w.letter) : w.isOther = false := by
  rcases h with ⟨axis, h⟩ | h | h | h | h
  · simp [Word.isOther, Axis.ofLetter?_eq_some_iff.mpr h]
  all_goals simp [Word.isOther, Word.isReserved, h]

namespace Word

theorem of_isKeptG {w : Word} (h : w.isKeptG α) : w.letter = 'G' ∧ w.motion? α = none := by
  simpa [isKeptG] using h

/-- A word that selects a distance mode selects no motion, so it is kept. -/
theorem distance?_of_not_isKeptG {w : Word} (h : w.isKeptG α = false) : w.distance? α = none := by
  by_cases hG : w.letter = 'G'
  · cases hm : w.motion? α with
    | none => simp [isKeptG, hG, hm] at h
    | some motion => exact distance?_eq_none_of_motion? hm
  · exact distance?_of_ne hG

theorem ne_of_isOther {w : Word} (h : w.isOther) : w.letter ≠ 'G' ∧ w.letter ≠ 'N' := by
  constructor <;>
  · intro hletter
    simp [isOther, isReserved, hletter] at h

/-- Words with a part in the path steer nothing, and neither do sequence numbers. -/
theorem steer_of_not_isOther {w : Word} (h : w.isOther = false) (codes : LineCodes) :
    w.steer α codes = codes := by
  rw [steer]
  split
  case h_5 => rfl
  all_goals
    rename_i hletter
    simp [isOther, isReserved, hletter, Axis.ofLetter?, Axis.all, Axis.letter] at h

theorem foldl_steer_filter (codes : LineCodes) (ws : List Word) :
    (ws.filter isOther).foldl (steer α) codes = ws.foldl (steer α) codes := by
  induction ws generalizing codes with
  | nil => rfl
  | cons w ws ih =>
      by_cases h : w.isOther
      · simp [h, ih]
      · simp [h, ih, steer_of_not_isOther (by simpa using h)]

end Word

namespace Block

variable (format : NumberFormat) (e : Emitted α) (b : Block α)

theorem isPathLetter_of_mem_numbers : ∀ n ∈ b.numbers e, IsPathLetter n.1 := by
  intro n h
  simp only [numbers, List.mem_append, List.mem_map, Option.mem_toList, Option.map_eq_some_iff] at h
  rcases h with (((⟨⟨axis, v⟩, -, rfl⟩ | ⟨v, -, rfl⟩) | ⟨v, -, rfl⟩) | h) | h
  · exact .inl ⟨axis, rfl⟩
  · exact .inr (.inl rfl)
  · exact .inr (.inr (.inl rfl))
  · split at h
    · obtain rfl : n = ('F', b.feed) := by simpa using h
      exact .inr (.inr (.inr (.inl rfl)))
    · simp at h
  · split at h
    · obtain rfl : n = ('S', b.spindle) := by simpa using h
      exact .inr (.inr (.inr (.inr rfl)))
    · simp at h

/-- The numbers of a changed line have letters of the path. -/
theorem filter_map_numbers_eq_nil {p : Word → Bool} (hp : ∀ w : Word, IsPathLetter w.letter → p w = false) :
    ((b.numbers e).map fun (letter, v) => (⟨letter, (format.render v).toList⟩ : Word)).filter p = [] := by
  apply List.filter_eq_nil_iff.mpr
  intro w hw
  obtain ⟨n, hn, rfl⟩ := List.mem_map.mp hw
  simpa using hp _ (b.isPathLetter_of_mem_numbers e n hn)

theorem letter_of_mem_sequence {ws : List Word} :
    ∀ w ∈ (ws.filter (·.letter == 'N')).getLast?.toList, w.letter = 'N' := by
  intro w hw
  have hmem := List.mem_of_getLast? (Option.mem_toList.mp hw)
  simpa using (List.mem_filter.mp hmem).2

omit [Scalar α] in
theorem letter_of_mem_motionWord? : ∀ w ∈ b.motionWord?.toList, w.letter = 'G' := by
  intro w hw
  obtain ⟨code, -, rfl⟩ := Option.map_eq_some_iff.mp (Option.mem_toList.mp hw)
  rfl

theorem filter_rewritten_G :
    (b.rewritten format e).filter (·.letter == 'G') =
      b.motionWord?.toList ++ (wordsOf b.text).filter (Word.isKeptG α) := by
  have hsequence : ((wordsOf b.text).filter (·.letter == 'N')).getLast?.toList.filter (·.letter == 'G') = [] := by
    apply List.filter_eq_nil_iff.mpr
    intro w hw
    simp [letter_of_mem_sequence w hw]
  have hmotion : b.motionWord?.toList.filter (·.letter == 'G') = b.motionWord?.toList := by
    apply List.filter_eq_self.mpr
    intro w hw
    simp [b.letter_of_mem_motionWord? w hw]
  have hkept : ((wordsOf b.text).filter (Word.isKeptG α)).filter (·.letter == 'G') =
      (wordsOf b.text).filter (Word.isKeptG α) := by
    apply List.filter_eq_self.mpr
    intro w hw
    simp [(Word.of_isKeptG (List.mem_filter.mp hw).2).1]
  have hnumbers := b.filter_map_numbers_eq_nil format e (p := (·.letter == 'G')) fun w hw => by
    simpa using hw.ne.2.1
  have hothers : ((wordsOf b.text).filter Word.isOther).filter (·.letter == 'G') = [] := by
    apply List.filter_eq_nil_iff.mpr
    intro w hw
    simpa using (Word.ne_of_isOther (List.mem_filter.mp hw).2).1
  simp only [rewritten, List.filter_append, hsequence, hmotion, hkept, hnumbers, hothers, List.nil_append,
    List.append_nil]

theorem filter_rewritten_isOther :
    (b.rewritten format e).filter Word.isOther = (wordsOf b.text).filter Word.isOther := by
  have hsequence : ((wordsOf b.text).filter (·.letter == 'N')).getLast?.toList.filter Word.isOther = [] := by
    apply List.filter_eq_nil_iff.mpr
    intro w hw
    simp [Word.isOther, Word.isReserved, letter_of_mem_sequence w hw]
  have hmotion : b.motionWord?.toList.filter Word.isOther = [] := by
    apply List.filter_eq_nil_iff.mpr
    intro w hw
    simp [Word.isOther, Word.isReserved, b.letter_of_mem_motionWord? w hw]
  have hkept : ((wordsOf b.text).filter (Word.isKeptG α)).filter Word.isOther = [] := by
    apply List.filter_eq_nil_iff.mpr
    intro w hw
    simp [Word.isOther, Word.isReserved, (Word.of_isKeptG (List.mem_filter.mp hw).2).1]
  have hnumbers := b.filter_map_numbers_eq_nil format e (p := Word.isOther) fun _ => IsPathLetter.not_isOther
  simp only [rewritten, List.filter_append, hsequence, hmotion, hkept, hnumbers, List.nil_append,
    List.filter_filter, Bool.and_self]

theorem filter_rewritten_of_isPathLetter {c : Char} (hc : IsPathLetter c) :
    (b.rewritten format e).filter (·.letter == c) =
      ((b.numbers e).filter (·.1 == c)).map fun (letter, v) => ⟨letter, (format.render v).toList⟩ := by
  obtain ⟨-, hG, hN⟩ := hc.ne
  have hsequence : ((wordsOf b.text).filter (·.letter == 'N')).getLast?.toList.filter (·.letter == c) = [] := by
    apply List.filter_eq_nil_iff.mpr
    intro w hw
    simpa [letter_of_mem_sequence w hw] using hN.symm
  have hmotion : b.motionWord?.toList.filter (·.letter == c) = [] := by
    apply List.filter_eq_nil_iff.mpr
    intro w hw
    simpa [b.letter_of_mem_motionWord? w hw] using hG.symm
  have hkept : ((wordsOf b.text).filter (Word.isKeptG α)).filter (·.letter == c) = [] := by
    apply List.filter_eq_nil_iff.mpr
    intro w hw
    simpa [(Word.of_isKeptG (List.mem_filter.mp hw).2).1] using hG.symm
  have hothers : ((wordsOf b.text).filter Word.isOther).filter (·.letter == c) = [] := by
    apply List.filter_eq_nil_iff.mpr
    intro w hw hletter
    obtain rfl : w.letter = c := by simpa using hletter
    have hother := (List.mem_filter.mp hw).2
    rw [hc.not_isOther] at hother
    simp at hother
  simp only [rewritten, List.filter_append, hsequence, hmotion, hkept, hothers, List.nil_append,
    List.append_nil, List.filter_map]
  rfl

theorem latest_rewritten_of_G {β : Type} {f : Word → Option β} (hf : ∀ w : Word, w.letter ≠ 'G' → f w = none)
    (v : β) : latest f v (b.rewritten format e) =
      latest f (latest f v b.motionWord?.toList) ((wordsOf b.text).filter (Word.isKeptG α)) := by
  rw [← Word.latest_filter f v (p := (·.letter == 'G')) (by simpa using hf), filter_rewritten_G,
    Word.latest_append]

theorem latest_rewritten_of_isPathLetter {β : Type} {c : Char} (hc : IsPathLetter c) {f : Word → Option β}
    (hf : ∀ w : Word, w.letter ≠ c → f w = none) (v : β) :
    latest f v (b.rewritten format e) =
      latest f v (((b.numbers e).filter (·.1 == c)).map fun (letter, v) =>
        ⟨letter, (format.render v).toList⟩) := by
  rw [← Word.latest_filter f v (p := (·.letter == c)) (by simpa using hf),
    filter_rewritten_of_isPathLetter format e b hc]

/-- A changed line steers what its text steers. -/
theorem foldl_steer_rewritten (codes : LineCodes) :
    (b.rewritten format e).foldl (Word.steer α) codes = (wordsOf b.text).foldl (Word.steer α) codes := by
  rw [← Word.foldl_steer_filter, filter_rewritten_isOther, Word.foldl_steer_filter]

/-! ### The numbers of a block by their letters -/

omit [Scalar α] in
theorem filter_axisWords (words : AxisWords α) (axis : Axis) :
    (words.toList.map fun (other, v) => (other.letter, v)).filter (·.1 == axis.letter) =
      ((words.get axis).map (axis.letter, ·)).toList := by
  have hletter : ∀ other : Axis, other.letter = axis.letter → other = axis := by
    intro other h
    have hother := Axis.ofLetter?_eq_some_iff.mpr h.symm
    rw [Axis.ofLetter?_eq_some_iff.mpr rfl] at hother
    exact (Option.some.inj hother).symm
  have haxes : ∀ axes : List Axis, axes.Nodup →
      ((axes.filterMap fun other => (words.get other).map (other, ·)).map fun (other, v) =>
        (other.letter, v)).filter (·.1 == axis.letter) =
        if axis ∈ axes then ((words.get axis).map (axis.letter, ·)).toList else [] := by
    intro axes hnodup
    induction axes with
    | nil => rfl
    | cons other axes ih =>
        obtain ⟨hother, hnodup⟩ := List.nodup_cons.mp hnodup
        have ih := ih hnodup
        by_cases heq : other = axis
        · subst heq
          rw [if_neg hother] at ih
          cases hv : words.get other <;> simp [hv, ih]
        · have hne : axis ≠ other := fun h => heq h.symm
          have hl : other.letter ≠ axis.letter := fun h => heq (hletter other h)
          cases hv : words.get other <;> simp [hv, ih, hne, hl]
  rw [AxisWords.toList, haxes Axis.all (by decide), if_pos axis.mem_all]

theorem filter_numbers_axis (axis : Axis) :
    (b.numbers e).filter (·.1 == axis.letter) = ((b.axes.get axis).map (axis.letter, ·)).toList := by
  have hne : axis.letter ≠ 'I' ∧ axis.letter ≠ 'J' ∧ axis.letter ≠ 'F' ∧ axis.letter ≠ 'S' := by
    cases axis <;> decide
  obtain ⟨hI, hJ, hF, hS⟩ := hne
  simp only [numbers, List.filter_append, filter_axisWords]
  cases b.i <;> cases b.j <;> split <;> split <;> simp [hI.symm, hJ.symm, hF.symm, hS.symm]

theorem filter_numbers :
    (b.numbers e).filter (·.1 == 'I') = (b.i.map ('I', ·)).toList ∧
      (b.numbers e).filter (·.1 == 'J') = (b.j.map ('J', ·)).toList ∧
      (b.numbers e).filter (·.1 == 'F') =
        (if Emitted.differs e.feed b.feed then [('F', b.feed)] else []) ∧
      (b.numbers e).filter (·.1 == 'S') =
        (if Emitted.differs e.spindle b.spindle then [('S', b.spindle)] else []) := by
  have haxes : ∀ c : Char, (∀ axis : Axis, axis.letter ≠ c) →
      (b.axes.toList.map fun (axis, v) => (axis.letter, v)).filter (·.1 == c) = [] := by
    intro c h
    apply List.filter_eq_nil_iff.mpr
    intro n hn
    obtain ⟨⟨axis, v⟩, -, rfl⟩ := List.mem_map.mp hn
    simpa using h axis
  have hI := haxes 'I' (by intro axis; cases axis <;> decide)
  have hJ := haxes 'J' (by intro axis; cases axis <;> decide)
  have hF := haxes 'F' (by intro axis; cases axis <;> decide)
  have hS := haxes 'S' (by intro axis; cases axis <;> decide)
  simp only [numbers, List.filter_append, hI, hJ, hF, hS, List.nil_append]
  refine ⟨?_, ?_, ?_, ?_⟩ <;>
    cases b.i <;> cases b.j <;> split <;> split <;> simp

end Block

/-! ### Reading a line written anew -/

theorem Motion.code?_lt {m : Motion} {code : ℕ} (h : m.code? = some code) : code < 4 := by
  have hcode := Motion.ofCode?_code? h
  simp only [Motion.ofCode?] at hcode
  split at hcode
  all_goals first | decide | simp at hcode

/-- The numbers of the path and the speeds of the block are finite. -/
structure Block.IsFinite (b : Block α) : Prop where
  axes : ∀ axis, ∀ v ∈ b.axes.get axis, Scalar.isFinite v = true
  i : ∀ v ∈ b.i, Scalar.isFinite v = true
  j : ∀ v ∈ b.j, Scalar.isFinite v = true
  feed : Scalar.isFinite b.feed = true
  spindle : Scalar.isFinite b.spindle = true

namespace Block

variable {b : Block α} (format : NumberFormat) (e : Emitted α)

theorem IsFinite.of_mem_numbers (h : b.IsFinite) : ∀ n ∈ b.numbers e, Scalar.isFinite n.2 = true := by
  intro n hn
  simp only [numbers, List.mem_append, List.mem_map, Option.mem_toList, Option.map_eq_some_iff] at hn
  rcases hn with (((⟨⟨axis, v⟩, hmem, rfl⟩ | ⟨v, hv, rfl⟩) | ⟨v, hv, rfl⟩) | hn) | hn
  · obtain ⟨other, -, hv⟩ := List.mem_filterMap.mp hmem
    obtain ⟨w, hw, heq⟩ := Option.map_eq_some_iff.mp hv
    obtain ⟨rfl, rfl⟩ := Prod.mk.inj heq
    exact h.axes _ _ hw
  · exact h.i v hv
  · exact h.j v hv
  · split at hn
    · obtain rfl : n = ('F', b.feed) := by simpa using hn
      exact h.feed
    · simp at hn
  · split at hn
    · obtain rfl : n = ('S', b.spindle) := by simpa using hn
      exact h.spindle
    · simp at hn

theorem proper_of_mem_rewritten [Scalar.Printed α] (hfinite : b.IsFinite) :
    ∀ w ∈ b.rewritten format e, w.Proper := by
  intro w hw
  simp only [rewritten, List.mem_append] at hw
  rcases hw with (((hw | hw) | hw) | hw) | hw
  · have hmem := List.mem_of_getLast? (Option.mem_toList.mp hw)
    exact Word.proper_of_mem_wordsOf (List.mem_filter.mp hmem).1
  · obtain ⟨code, -, rfl⟩ := Option.map_eq_some_iff.mp (Option.mem_toList.mp hw)
    refine ⟨rfl, ?_⟩
    intro c hc
    simp [Word.isValueChar, Nat.isDigit_of_mem_toDigits (by decide) (by decide) hc]
  · exact Word.proper_of_mem_wordsOf (List.mem_filter.mp hw).1
  · obtain ⟨n, hn, rfl⟩ := List.mem_map.mp hw
    exact ⟨(b.isPathLetter_of_mem_numbers e n hn).ne.1, format.isValueChar_render (hfinite.of_mem_numbers e n hn)⟩
  · exact Word.proper_of_mem_wordsOf (List.mem_filter.mp hw).1

/-- The words of a changed line are those that its block has been written with. -/
theorem FromText.wordsOf_write [Scalar.Printed α] (h : b.FromText) (hm : b.modified = true) (hfinite : b.IsFinite) :
    wordsOf (b.write format e).2 = b.rewritten format e := by
  rw [h.write_eq hm]
  exact wordsOf_spelled (proper_of_mem_rewritten format e hfinite) (Content.comments_ofLine _)

/-! #### Modes -/

section

variable [Scalar.Coded α]

theorem motion?_motionWord? : ∀ w ∈ b.motionWord?, w.motion? α = some b.motion := by
  intro w hw
  obtain ⟨code, hcode, rfl⟩ := Option.map_eq_some_iff.mp hw
  have hread := Scalar.Coded.code?_toDigits (α := α) code (Motion.code?_lt hcode) 'G'
  simp [Word.motion?, hread, Motion.ofCode?_code? hcode]

/-- A changed line selects the motion of its block. -/
theorem latest_motion?_rewritten (m : Motion) :
    latest (Word.motion? α) m (b.rewritten format e) = if b.motion = .unset then m else b.motion := by
  have hkept : ∀ w ∈ (wordsOf b.text).filter (Word.isKeptG α), w.motion? α = none := fun w hw =>
    (Word.of_isKeptG (List.mem_filter.mp hw).2).2
  rw [latest_rewritten_of_G format e b fun w => Word.motion?_of_ne, Word.latest_of_none _ _ hkept]
  cases hw : b.motionWord? with
  | none =>
      have hunset : b.motion = .unset := by
        simp only [motionWord?, Option.map_eq_none_iff] at hw
        cases hm : b.motion with
        | unset => rfl
        | rapid | linear => simp [hm, Motion.code?] at hw
        | arc w => cases w <;> simp [hm, Motion.code?] at hw
      simp [hunset]
  | some w =>
      have hset : b.motion ≠ .unset := by
        intro hm
        simp [motionWord?, hm, Motion.code?] at hw
      simp [motion?_motionWord? w hw, hset]

/-- A changed line selects the distance mode that its text selects. -/
theorem latest_distance?_rewritten (absolute : Bool) :
    latest (Word.distance? α) absolute (b.rewritten format e) =
      latest (Word.distance? α) absolute (wordsOf b.text) := by
  have hmotion : ∀ w ∈ b.motionWord?.toList, w.distance? α = none := fun w hw =>
    distance?_eq_none_of_motion? (motion?_motionWord? w (Option.mem_toList.mp hw))
  rw [latest_rewritten_of_G format e b fun w => Word.distance?_of_ne, Word.latest_of_none _ _ hmotion,
    Word.latest_filter _ _ fun w => Word.distance?_of_not_isKeptG]

/-- A changed line selects machine coordinates if its block has them. -/
theorem FromText.any_isMachineFrame_rewritten (h : b.FromText) :
    (b.rewritten format e).any (Word.isMachineFrame α) = b.machineFrame := by
  have hsource : b.machineFrame = (wordsOf b.text).any (Word.isMachineFrame α) := by
    rw [h.machineFrame, lineWords, LineWords.foldl_add]
    simp
  have hletter : ∀ {w : Word}, w.isMachineFrame α = true → w.letter = 'G' ∧ w.motion? α = none := by
    intro w hw
    obtain ⟨hletter, hcode⟩ : w.letter = 'G' ∧ w.code? α = some 53 := by simpa [Word.isMachineFrame] using hw
    exact ⟨hletter, by simp [Word.motion?, hcode, Motion.ofCode?]⟩
  rw [hsource, Bool.eq_iff_iff, List.any_eq_true, List.any_eq_true]
  constructor
  · rintro ⟨w, hw, hmachine⟩
    have hG : w ∈ (b.rewritten format e).filter (·.letter == 'G') := by simp [hw, (hletter hmachine).1]
    rw [filter_rewritten_G] at hG
    rcases List.mem_append.mp hG with hmotion | hkept
    · have hselects := motion?_motionWord? w (Option.mem_toList.mp hmotion)
      simp [(hletter hmachine).2] at hselects
    · exact ⟨w, (List.mem_filter.mp hkept).1, hmachine⟩
  · rintro ⟨w, hw, hmachine⟩
    have hkept : w.isKeptG α = true := by simp [Word.isKeptG, hletter hmachine]
    have hG : w ∈ (b.rewritten format e).filter (·.letter == 'G') := by
      rw [filter_rewritten_G]
      exact List.mem_append_right _ (List.mem_filter.mpr ⟨hw, hkept⟩)
    exact ⟨w, (List.mem_filter.mp hG).1, hmachine⟩

end

/-! #### Numbers -/

section

variable [Scalar.Legible α format.decimalPlaces]

/-- A speed that has to be written is read again as it has been rounded. -/
theorem latest_feed?_rewritten_eq_rounded (hfinite : Scalar.isFinite b.feed = true) (v : α) :
    latest Word.feed? v (b.rewritten format e) =
      if Emitted.differs e.feed b.feed then Scalar.rounded format.decimalPlaces b.feed else v := by
  have hF : IsPathLetter 'F' := .inr (.inr (.inr (.inl rfl)))
  have hread : (⟨'F', (format.render b.feed).toList⟩ : Word).feed? =
      some (Scalar.rounded format.decimalPlaces b.feed) := by
    rw [Word.feed?, if_pos rfl]
    exact Scalar.Legible.number?_render format rfl _ hfinite 'F'
  rw [latest_rewritten_of_isPathLetter format e b hF fun w => Word.feed?_of_ne, (filter_numbers e b).2.2.1]
  split <;> simp [hread]

theorem latest_spindle?_rewritten_eq_rounded (hfinite : Scalar.isFinite b.spindle = true) (v : α) :
    latest Word.spindle? v (b.rewritten format e) =
      if Emitted.differs e.spindle b.spindle then Scalar.rounded format.decimalPlaces b.spindle else v := by
  have hS : IsPathLetter 'S' := .inr (.inr (.inr (.inr rfl)))
  have hread : (⟨'S', (format.render b.spindle).toList⟩ : Word).spindle? =
      some (Scalar.rounded format.decimalPlaces b.spindle) := by
    rw [Word.spindle?, if_pos rfl]
    exact Scalar.Legible.number?_render format rfl _ hfinite 'S'
  rw [latest_rewritten_of_isPathLetter format e b hS fun w => Word.spindle?_of_ne, (filter_numbers e b).2.2.2]
  split <;> simp [hread]

/-- A changed line has the finite numbers of its block, as they have been rounded. -/
theorem latest_written?_rewritten_of_isFinite {c : Char} (hc : IsPathLetter c) {value : Option α}
    (hnumbers : (b.numbers e).filter (·.1 == c) = (value.map (c, ·)).toList)
    (hfinite : ∀ v ∈ value, Scalar.isFinite v = true) :
    latest (Word.written? α c) none (b.rewritten format e) = value.map (Scalar.rounded format.decimalPlaces) := by
  have hf : ∀ w : Word, w.letter ≠ c → w.written? α c = none := fun w hw => by
    simp [Word.written?, hw]
  rw [latest_rewritten_of_isPathLetter format e b hc hf, hnumbers]
  cases value with
  | none => rfl
  | some v =>
      have hread := Scalar.Legible.number?_render format rfl v (hfinite v rfl) c
      simp [Word.written?, hread]

end

end Block

end

/-! ### Exact numbers -/

section

variable {α : Type} [Field α] [LinearOrder α] [IsStrictOrderedRing α] [FloorRing α] [PlaneFunctions α]

variable {b : Block α} (format : NumberFormat) (e : Emitted α)

omit [IsStrictOrderedRing α] in
theorem Block.isFinite (b : Block α) : b.IsFinite :=
  ⟨fun _ _ _ => rfl, fun _ _ => rfl, fun _ _ => rfl, rfl, rfl⟩

/-- The numbers of the path and the speeds of the block are multiples of the last written place. -/
structure Block.OnGrid (places : ℕ) (b : Block α) : Prop where
  axes : ∀ axis, ∀ v ∈ b.axes.get axis, PartProgram.OnGrid places v
  i : ∀ v ∈ b.i, PartProgram.OnGrid places v
  j : ∀ v ∈ b.j, PartProgram.OnGrid places v
  feed : PartProgram.OnGrid places b.feed
  spindle : PartProgram.OnGrid places b.spindle

omit [LinearOrder α] [IsStrictOrderedRing α] [FloorRing α] [PlaneFunctions α] in
theorem Block.onGrid_iff {places : ℕ} {b : Block α} :
    b.OnGrid places ↔ (∀ axis ∈ Axis.all, ∀ v ∈ b.axes.get axis, PartProgram.OnGrid places v) ∧
      (∀ v ∈ b.i, PartProgram.OnGrid places v) ∧ (∀ v ∈ b.j, PartProgram.OnGrid places v) ∧
      PartProgram.OnGrid places b.feed ∧ PartProgram.OnGrid places b.spindle :=
  ⟨fun h => ⟨fun axis _ => h.axes axis, h.i, h.j, h.feed, h.spindle⟩,
    fun ⟨haxes, hi, hj, hfeed, hspindle⟩ => ⟨fun axis => haxes axis axis.mem_all, hi, hj, hfeed, hspindle⟩⟩

instance {places : ℕ} {b : Block ℚ} : Decidable (b.OnGrid places) :=
  decidable_of_iff _ Block.onGrid_iff.symm

namespace Block

/-- A speed that has to be written is read again. -/
theorem latest_feed?_rewritten (hgrid : PartProgram.OnGrid format.decimalPlaces b.feed) (v : α) :
    latest Word.feed? v (b.rewritten format e) = if Emitted.differs e.feed b.feed then b.feed else v := by
  rw [latest_feed?_rewritten_eq_rounded format e rfl, Scalar.rounded_eq, rounded_of_onGrid hgrid]

theorem latest_spindle?_rewritten (hgrid : PartProgram.OnGrid format.decimalPlaces b.spindle) (v : α) :
    latest Word.spindle? v (b.rewritten format e) =
      if Emitted.differs e.spindle b.spindle then b.spindle else v := by
  rw [latest_spindle?_rewritten_eq_rounded format e rfl, Scalar.rounded_eq, rounded_of_onGrid hgrid]

/-- A changed line has the numbers of its block, as they have been rounded. -/
theorem latest_written?_rewritten_eq_rounded {c : Char} (hc : IsPathLetter c) {value : Option α}
    (hnumbers : (b.numbers e).filter (·.1 == c) = (value.map (c, ·)).toList) :
    latest (Word.written? α c) none (b.rewritten format e) = value.map (rounded format.decimalPlaces) := by
  rw [latest_written?_rewritten_of_isFinite format e hc hnumbers fun _ _ => rfl, funext (Scalar.rounded_eq _)]

theorem latest_written?_rewritten {c : Char} (hc : IsPathLetter c) {value : Option α}
    (hnumbers : (b.numbers e).filter (·.1 == c) = (value.map (c, ·)).toList)
    (hgrid : ∀ v ∈ value, PartProgram.OnGrid format.decimalPlaces v) :
    latest (Word.written? α c) none (b.rewritten format e) = value := by
  rw [latest_written?_rewritten_eq_rounded format e hc hnumbers]
  cases value with
  | none => rfl
  | some v => exact congrArg some (rounded_of_onGrid (hgrid v rfl))

/-- A changed line has the words of the path of its block. -/
theorem lineWords_rewritten (hgrid : b.OnGrid format.decimalPlaces) :
    ((b.rewritten format e).foldl LineWords.add {} : LineWords α).axes = b.axes ∧
      ((b.rewritten format e).foldl LineWords.add {} : LineWords α).i = b.i ∧
      ((b.rewritten format e).foldl LineWords.add {} : LineWords α).j = b.j := by
  have haxes : ∀ axis : Axis,
      latest (Word.written? α axis.letter) none (b.rewritten format e) = b.axes.get axis := fun axis =>
    latest_written?_rewritten format e (.inl ⟨axis, rfl⟩) (filter_numbers_axis e b axis) (hgrid.axes axis)
  have hi : latest (Word.written? α 'I') none (b.rewritten format e) = b.i :=
    latest_written?_rewritten format e (.inr (.inl rfl)) (filter_numbers e b).1 hgrid.i
  have hj : latest (Word.written? α 'J') none (b.rewritten format e) = b.j :=
    latest_written?_rewritten format e (.inr (.inr (.inl rfl))) (filter_numbers e b).2.1 hgrid.j
  generalize b.rewritten format e = ws at *
  rw [LineWords.foldl_add]
  exact ⟨AxisWords.ext haxes, hi, hj⟩

end Block

end

end PartProgram
