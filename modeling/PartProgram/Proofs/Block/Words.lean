import PartProgram.Block.Reading

/-! # Lines as lists of words

Each mode follows its own words, the last one winning; everything else on a line is read off its
words alone, whatever the modes are.
-/

namespace PartProgram

variable {α : Type} [Scalar α]

/-! ### What a single word does -/

namespace Word

variable (α) in
/-- The motion that the word selects. -/
def motion? (w : Word) : Option Motion :=
  if w.letter = 'G' then (w.code? α).bind Motion.ofCode? else none

variable (α) in
/-- The distance mode that the word selects: `true` for coordinates. -/
def distance? (w : Word) : Option Bool :=
  if w.letter = 'G' then
    match w.code? α with
    | some 90 => some true
    | some 91 => some false
    | _ => none
  else none

def feed? (w : Word) : Option α := if w.letter = 'F' then w.number? else none

def spindle? (w : Word) : Option α := if w.letter = 'S' then w.number? else none

variable (α) in
/-- The codes of the line after the word. -/
def steer (codes : LineCodes) (w : Word) : LineCodes :=
  match w.letter with
  | 'M' => { codes with m := ((w.code? α).filter isSteering).or codes.m }
  | 'P' => { codes with p := w.code? α }
  | 'O' => { codes with o := w.code? α }
  | 'L' => { codes with l := w.code? α }
  | _ => codes

theorem motion?_ne_unset (w : Word) : w.motion? α ≠ some .unset := by
  intro h
  rw [motion?] at h
  split at h
  · obtain ⟨code, -, hcode⟩ := Option.bind_eq_some_iff.mp h
    simp only [Motion.ofCode?] at hcode
    split at hcode <;> simp at hcode
  · simp at h

theorem motion?_of_ne {w : Word} (h : w.letter ≠ 'G') : w.motion? α = none := if_neg h

theorem distance?_of_ne {w : Word} (h : w.letter ≠ 'G') : w.distance? α = none := if_neg h

theorem feed?_of_ne {w : Word} (h : w.letter ≠ 'F') : (w.feed? : Option α) = none := if_neg h

theorem spindle?_of_ne {w : Word} (h : w.letter ≠ 'S') : (w.spindle? : Option α) = none := if_neg h

/-- The value of the last word that has one, and `v` without such a word. -/
def latest {β : Type} (f : Word → Option β) (v : β) (ws : List Word) : β :=
  ws.foldl (fun v w => (f w).getD v) v

section Latest

variable {β : Type} (f : Word → Option β) (v : β)

omit [Scalar α] in
@[simp]
theorem latest_nil : latest f v [] = v := rfl

@[simp]
theorem latest_cons (w : Word) (ws : List Word) :
    latest f v (w :: ws) = latest f ((f w).getD v) ws := rfl

theorem latest_append (xs ys : List Word) :
    latest f v (xs ++ ys) = latest f (latest f v xs) ys := by
  simp [latest]

theorem latest_of_none {ws : List Word} (h : ∀ w ∈ ws, f w = none) : latest f v ws = v := by
  induction ws generalizing v with
  | nil => rfl
  | cons w ws ih =>
      rw [latest_cons, h w (by simp)]
      exact ih v fun w' hw => h w' (by simp [hw])

/-- The latest value is the one of some word, if any word has a value. -/
theorem latest_eq_or (ws : List Word) :
    latest f v ws = v ∨ ∃ w ∈ ws, f w = some (latest f v ws) := by
  induction ws generalizing v with
  | nil => exact .inl rfl
  | cons w ws ih =>
      rw [latest_cons]
      rcases ih ((f w).getD v) with h | ⟨w', hw', h⟩
      · rw [h]
        cases hf : f w with
        | none => exact .inl rfl
        | some value => exact .inr ⟨w, by simp, hf⟩
      · exact .inr ⟨w', by simp [hw'], h⟩

theorem latest_eq_getLast? (ws : List Word) : latest f v ws = (ws.filterMap f).getLast?.getD v := by
  induction ws generalizing v with
  | nil => rfl
  | cons w ws ih =>
      rw [latest_cons, ih]
      cases h : f w with
      | none => simp [h]
      | some value => simp [h, List.getLast?_cons]

/-- Words without a value do not count. -/
theorem latest_filter {p : Word → Bool} (h : ∀ w, p w = false → f w = none) (ws : List Word) :
    latest f v (ws.filter p) = latest f v ws := by
  induction ws generalizing v with
  | nil => rfl
  | cons w ws ih =>
      by_cases hp : p w
      · simp [hp, ih]
      · have hn : f w = none := h w (by simpa using hp)
        simp [hp, hn, ih]

end Latest

end Word

/-- A code that selects a motion selects no distance mode. -/
theorem distance?_eq_none_of_motion? {w : Word} {motion : Motion}
    (h : w.motion? α = some motion) : w.distance? α = none := by
  simp only [Word.motion?] at h
  split at h
  · rename_i hw
    obtain ⟨code, hcode, hmotion⟩ := Option.bind_eq_some_iff.mp h
    simp only [Word.distance?, hw, if_true, hcode]
    split <;> simp_all [Motion.ofCode?]
  · simp at h

/-- A `G` word changes the motion or the distance mode, and no other mode. -/
theorem applyG_modal (w : Word) (hw : w.letter = 'G') (modal : Modal α) (line : LineWords α) :
    (applyG w modal line).1 =
      { modal with
        motion := (w.motion? α).getD modal.motion
        absolute := (w.distance? α).getD modal.absolute
        containsArc := modal.containsArc || (w.motion? α).any Motion.isArc
        containsRelative := modal.containsRelative || w.distance? α == some false } := by
  have hm : w.motion? α = (w.code? α).bind Motion.ofCode? := by simp [Word.motion?, hw]
  cases hc : (w.code? α).bind Motion.ofCode? with
  | some motion =>
      have hd : w.distance? α = none := distance?_eq_none_of_motion? (hm.trans hc)
      simp [applyG, hm, hc, hd]
  | none =>
      simp only [applyG, hm, hc, Word.distance?, hw, if_true]
      cases hn : w.code? α with
      | none => simp
      | some n =>
          by_cases h90 : n = 90
          · simp [h90]
          · by_cases h91 : n = 91
            · simp [h91]
            · by_cases h53 : n = 53 <;> simp [h90, h91, h53]

/-- What a word does to the modal state. -/
theorem applyWord_modal (s : Modal α × LineWords α) (w : Word) :
    (applyWord s w).1 =
      { motion := (w.motion? α).getD s.1.motion
        absolute := (w.distance? α).getD s.1.absolute
        feed := w.feed?.getD s.1.feed
        spindle := w.spindle?.getD s.1.spindle
        containsArc := s.1.containsArc || (w.motion? α).any Motion.isArc
        containsRelative := s.1.containsRelative || w.distance? α == some false
        codes := w.steer α s.1.codes } := by
  simp only [applyWord]
  split
  case h_1 hw => simp [applyG_modal w hw, Word.feed?, Word.spindle?, Word.steer, hw]
  case h_11 hG _ _ hF hS hM hP hO hL _ =>
    have hs : w.steer α s.1.codes = s.1.codes := by
      simp only [Word.steer]
    split <;>
      simp [Word.motion?_of_ne hG, Word.distance?_of_ne hG, Word.feed?_of_ne hF,
        Word.spindle?_of_ne hS, hs]
  all_goals
    rename_i hw
    simp [Word.motion?, Word.distance?, Word.feed?, Word.spindle?, Word.steer, hw]

/-- The words of a line that are no modes do not depend on the modes. -/
theorem applyWord_words (m m' : Modal α) (line : LineWords α) (w : Word) :
    (applyWord (m, line) w).2 = (applyWord (m', line) w).2 := by
  simp only [applyWord]
  split <;> try rfl
  · simp only [applyG]
    split
    · rfl
    · split <;> rfl
  · split <;> rfl

/-- The words of a line after one more word. -/
def LineWords.add (line : LineWords α) (w : Word) : LineWords α := (applyWord (Modal.initial, line) w).2

/-- Reading words changes every mode on its own. -/
theorem foldl_applyWord (m : Modal α) (line : LineWords α) (ws : List Word) :
    ws.foldl applyWord (m, line) =
      ({ motion := Word.latest (Word.motion? α) m.motion ws
         absolute := Word.latest (Word.distance? α) m.absolute ws
         feed := Word.latest Word.feed? m.feed ws
         spindle := Word.latest Word.spindle? m.spindle ws
         containsArc := m.containsArc || ws.any fun w => (w.motion? α).any Motion.isArc
         containsRelative := m.containsRelative || ws.any fun w => w.distance? α == some false
         codes := ws.foldl (Word.steer α) m.codes },
        ws.foldl LineWords.add line) := by
  induction ws generalizing m line with
  | nil => simp
  | cons w ws ih =>
      have hw : applyWord (m, line) w = ((applyWord (m, line) w).1, line.add w) :=
        Prod.ext rfl (applyWord_words m Modal.initial line w)
      rw [List.foldl_cons, hw, ih, applyWord_modal]
      simp [Bool.or_assoc]

/-! ### What a word adds to its line -/

namespace Word

variable (α) in
/-- What the word writes for a letter: a number, or nothing that can be read. -/
def written? (letter : Char) (w : Word) : Option (Option α) :=
  if w.letter = letter then some w.number? else none

/-- Letters with a meaning of their own, besides those of the axes. -/
def isReserved (w : Word) : Bool := ['G', 'I', 'J', 'F', 'S', 'N'].contains w.letter

/-- The word has no part in the path. -/
def isOther (w : Word) : Bool := !w.isReserved && (Axis.ofLetter? w.letter).isNone

variable (α) in
/-- The word is a `G` word that selects no motion. -/
def isKeptG (w : Word) : Bool := w.letter == 'G' && (w.motion? α).isNone

variable (α) in
/-- The word selects machine coordinates. -/
def isMachineFrame (w : Word) : Bool := w.letter == 'G' && w.code? α == some 53

/-- The text of a sequence number. -/
def sequence? (w : Word) : Option (Option String) :=
  if w.letter = 'N' then some (some w.text) else none

end Word

theorem Axis.ofLetter?_eq_some_iff {c : Char} {axis : Axis} :
    Axis.ofLetter? c = some axis ↔ c = axis.letter := by
  refine ⟨?_, ?_⟩
  · intro h
    rw [Axis.ofLetter?] at h
    have hletter := List.find?_some h
    exact (eq_of_beq hletter).symm
  · rintro rfl
    cases axis <;> decide

theorem LineWords.add_eq (line : LineWords α) (w : Word) :
    line.add w =
      { axes := ⟨fun axis => (w.written? α axis.letter).getD (line.axes.get axis)⟩
        i := (w.written? α 'I').getD line.i
        j := (w.written? α 'J').getD line.j
        machineFrame := line.machineFrame || w.isMachineFrame α
        extra :=
          { sequence := w.sequence?.getD line.extra.sequence
            gWords := line.extra.gWords ++ if w.isKeptG α then [w.text] else []
            others := line.extra.others ++ if w.isOther then [w.text] else []
            comment := line.extra.comment } } := by
  have haxes : ∀ axes : AxisWords α,
      ((Axis.ofLetter? w.letter).elim axes fun axis => axes.set axis w.number?) =
        ⟨fun axis => (w.written? α axis.letter).getD (axes.get axis)⟩ := by
    intro axes
    ext1 axis
    cases h : Axis.ofLetter? w.letter with
    | none =>
        have hne : w.letter ≠ axis.letter := by
          intro heq
          simp [Axis.ofLetter?_eq_some_iff.mpr heq] at h
        simp [Word.written?, hne]
    | some other =>
        have hletter : w.letter = other.letter := Axis.ofLetter?_eq_some_iff.mp h
        by_cases hax : axis = other
        · simp [hax, Word.written?, hletter]
        · have hne : w.letter ≠ axis.letter := by
            intro heq
            have hsame := Axis.ofLetter?_eq_some_iff.mpr heq
            rw [h] at hsame
            exact hax (Option.some.inj hsame).symm
          simp [AxisWords.get_set_of_ne _ _ hax, Word.written?, hne]
  rw [← haxes]
  clear haxes
  simp only [LineWords.add, applyWord]
  split
  case h_1 hw =>
    have hletter : Axis.ofLetter? 'G' = none := by decide
    simp only [applyG, Word.isKeptG, Word.isOther, Word.isReserved, Word.isMachineFrame,
      Word.written?, Word.sequence?, Word.motion?, hw, if_true, hletter]
    cases hm : (w.code? α).bind Motion.ofCode? with
    | some motion =>
        have hcode : w.code? α ≠ some 53 := by
          intro h
          simp [h, Motion.ofCode?] at hm
        simp [beq_eq_false_iff_ne.mpr hcode]
    | none =>
        cases w.code? α with
        | none => simp [LineWords.addG]
        | some n =>
            by_cases h90 : n = 90
            · simp [h90, LineWords.addG]
            · by_cases h91 : n = 91
              · simp [h91, LineWords.addG]
              · by_cases h53 : n = 53 <;> simp [h90, h91, h53, LineWords.addG]
  case h_11 hG hI hJ hF hS hM hP hO hL hN =>
    simp only [Word.isKeptG, Word.isOther, Word.isReserved, Word.isMachineFrame, Word.written?,
      Word.sequence?]
    split <;> simp_all [LineWords.addOther]
  all_goals
    rename_i hw
    simp [Word.isKeptG, Word.isOther, Word.isReserved, Word.isMachineFrame, Word.written?,
      Word.sequence?, hw, LineWords.addOther, Axis.ofLetter?, Axis.all, Axis.letter]

/-- The words of a line: of each kind the last one, and all those without a part in the path. -/
theorem LineWords.foldl_add (line : LineWords α) (ws : List Word) :
    ws.foldl LineWords.add line =
      { axes := ⟨fun axis => Word.latest (Word.written? α axis.letter) (line.axes.get axis) ws⟩
        i := Word.latest (Word.written? α 'I') line.i ws
        j := Word.latest (Word.written? α 'J') line.j ws
        machineFrame := line.machineFrame || ws.any (Word.isMachineFrame α)
        extra :=
          { sequence := Word.latest Word.sequence? line.extra.sequence ws
            gWords := line.extra.gWords ++ (ws.filter (Word.isKeptG α)).map Word.text
            others := line.extra.others ++ (ws.filter Word.isOther).map Word.text
            comment := line.extra.comment } } := by
  induction ws generalizing line with
  | nil => simp
  | cons w ws ih =>
      rw [List.foldl_cons, ih, LineWords.add_eq]
      by_cases hg : w.isKeptG α <;> by_cases ho : w.isOther <;> simp [hg, ho, Bool.or_assoc]

/-! ### Whole lines -/

/-- The words of a line. -/
def wordsOf (line : String) : List Word := Word.ofCode (Content.ofLine line).code

theorem wordsOf_empty : wordsOf "" = [] := by decide

variable (α) in
/-- The codes of a line. -/
def LineCodes.ofLine (line : String) : LineCodes :=
  (Block.read 0 line (Modal.initial : Modal α)).1.codes

theorem LineCodes.ofLine_eq (line : String) :
    LineCodes.ofLine α line = (wordsOf line).foldl (Word.steer α) {} := by
  simp only [LineCodes.ofLine, Block.read, foldl_applyWord, wordsOf]

/-- The modal state that a line leaves. -/
def Modal.after (m : Modal α) (line : String) : Modal α where
  motion := Word.latest (Word.motion? α) m.motion (wordsOf line)
  absolute := Word.latest (Word.distance? α) m.absolute (wordsOf line)
  feed := Word.latest Word.feed? m.feed (wordsOf line)
  spindle := Word.latest Word.spindle? m.spindle (wordsOf line)
  containsArc := m.containsArc || (wordsOf line).any fun w => (w.motion? α).any Motion.isArc
  containsRelative := m.containsRelative || (wordsOf line).any fun w => w.distance? α == some false
  codes := LineCodes.ofLine α line

namespace Block

variable (number : Nat) (line : String) (m : Modal α)

@[simp]
theorem read_fst : (Block.read number line m).1 = m.after line := by
  simp only [Block.read, foldl_applyWord, wordsOf, LineCodes.ofLine_eq, Modal.after]

/-- A line read: its own words, and the modes that it leaves. -/
theorem read_snd :
    (Block.read number line m).2 =
      let words : LineWords α := (wordsOf line).foldl LineWords.add {}
      let codes := LineCodes.ofLine α line
      { inert number line with
        motion := (m.after line).motion
        axes := words.axes
        i := words.i
        j := words.j
        feed := (m.after line).feed
        spindle := (m.after line).spindle
        absolute := (m.after line).absolute
        machineFrame := words.machineFrame
        call := codes.call?
        label := codes.o
        returns := codes.m == some 99
        programEnd := codes.m == some 2 || codes.m == some 30
        extra := { words.extra with comment := (Content.ofLine line).comment? } } := by
  simp only [Block.read, foldl_applyWord, wordsOf, LineCodes.ofLine_eq, Modal.after]

end Block

end PartProgram
