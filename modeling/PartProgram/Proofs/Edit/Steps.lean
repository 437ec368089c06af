import PartProgram.Proofs.Edit.Rewriting
import PartProgram.Proofs.Program.Reading

/-! # Steps and their modes

A changed line is written with the modes that it has in the order of the text. The program runs in the
order of its calls. A step keeps its modes if what is written for its line is what the step has.
-/

namespace PartProgram

open Word (latest)

/-! ### What a changed line selects -/

/-- The modes that are written on a changed line. -/
structure Selection (α : Type) where
  motion : Motion
  feed : Option α
  spindle : Option α

section

variable {α : Type} [Field α] [LinearOrder α]

/-- The modes that are written on the line if it has been changed, given the speeds of the line before
it. A speed is left out when it has not changed. -/
def Block.select (last : α × α) (b : Block α) : (α × α) × Option (Selection α) :=
  ((b.feed, b.spindle),
    if b.modified then
      some
        { motion := b.motion
          feed := if last.1 = b.feed then none else some b.feed
          spindle := if last.2 = b.spindle then none else some b.spindle }
    else none)

omit [Field α] in
theorem Block.of_mem_select {last : α × α} {b : Block α} {s : Selection α} (h : s ∈ (b.select last).2) :
    b.modified = true ∧ s.motion = b.motion ∧ s.feed = (if last.1 = b.feed then none else some b.feed) ∧
      s.spindle = (if last.2 = b.spindle then none else some b.spindle) := by
  simp only [select] at h
  split at h
  · rename_i hm
    obtain rfl := Option.some.inj h
    exact ⟨hm, rfl, rfl, rfl⟩
  · simp at h

/-- The modes that are written on line `n` of the program. -/
def Program.selected (p : Program α) (n : ℕ) : Option (Selection α) :=
  ((pass Block.select (0, 0) p.lines).2[n]?).join

end

section

variable {α : Type} [Scalar α]

variable (α) in
/-- The line has a motion word. -/
def selectsMotion (line : String) : Bool := (wordsOf line).any fun w => (w.motion? α).isSome

theorem latest_motion?_eq (m m' : Motion) (line : String) :
    latest (Word.motion? α) m (wordsOf line) =
      if selectsMotion α line then latest (Word.motion? α) m' (wordsOf line) else m := by
  simp only [Word.latest_eq_getLast?]
  by_cases h : selectsMotion α line = true
  · obtain ⟨w, hw, hmotion⟩ := List.any_eq_true.mp h
    obtain ⟨motion, hmotion⟩ := Option.isSome_iff_exists.mp hmotion
    have hne : (wordsOf line).filterMap (Word.motion? α) ≠ [] :=
      List.ne_nil_of_mem (List.mem_filterMap.mpr ⟨w, hw, hmotion⟩)
    rw [if_pos h, List.getLast?_eq_some_getLast hne]
    rfl
  · have hnil : (wordsOf line).filterMap (Word.motion? α) = [] := by
      simpa [selectsMotion] using h
    rw [if_neg h, hnil]
    rfl

/-- The second line is the first one as it is written with a selection, or with its own words. -/
structure Rewrites (line line' : String) (s? : Option (Selection α)) : Prop where
  codes : LineCodes.ofLine α line' = LineCodes.ofLine α line
  absolute : ∀ absolute, latest (Word.distance? α) absolute (wordsOf line') =
    latest (Word.distance? α) absolute (wordsOf line)
  same : s? = none → wordsOf line' = wordsOf line
  motion : ∀ s ∈ s?, ∀ m, latest (Word.motion? α) m (wordsOf line') = if s.motion = .unset then m else s.motion
  silent : ∀ s ∈ s?, s.motion = .unset → selectsMotion α line = false
  feed : ∀ s ∈ s?, ∀ v, latest Word.feed? v (wordsOf line') = s.feed.getD v
  spindle : ∀ s ∈ s?, ∀ v, latest Word.spindle? v (wordsOf line') = s.spindle.getD v
  coordinates : ∀ s ∈ s?, ∀ n (m : Modal α), (Block.read n line m).2.hasCoordinates = true

theorem Rewrites.refl (line : String) : Rewrites (α := α) line line none :=
  ⟨rfl, fun _ => rfl, fun _ => rfl, by simp, by simp, by simp, by simp, by simp⟩

end

/-! ### Steps that keep their modes -/

section

variable {α : Type} (flips : Prop) [Decidable flips]

/-- The motion as an edit leaves it: the sense of arcs may be turned. -/
def Motion.turned (m : Motion) : Motion := if flips then m.mirrored else m

theorem Motion.turned_iff (turned : Bool) (m : Motion) :
    (if turned then m.turned flips else m) = m.turned flips ↔ (flips → m.isArc = true → turned = true) := by
  by_cases h : flips
  · cases turned
    · cases m with
      | arc w => cases w <;> simp [Motion.turned, h, mirrored, isArc, winding?, Winding.flip]
      | _ => simp [Motion.turned, h, mirrored, isArc, winding?]
    · simp
  · simp [Motion.turned, h]

/-- The second block runs with the modes of the first one. Where there are coordinates, it has the
motion that the edit gives. -/
structure Block.SameModes (b b' : Block α) : Prop where
  feed : b'.feed = b.feed
  spindle : b'.spindle = b.spindle
  absolute : b'.absolute = b.absolute
  motion : b.hasCoordinates = true → b'.motion = b.motion.turned flips

/-- The speeds in effect before a step, and whether the edit has turned the motion in effect. -/
structure Running (α : Type) where
  feed : α
  spindle : α
  turned : Bool

/-- What is in effect after a step. A changed line selects the motion that the edit gives, any other
line the motion of its text. -/
def Running.after [Scalar α] (c : Running α) (s? : Option (Selection α)) (b : Block α) : Running α where
  feed := b.feed
  spindle := b.spindle
  turned := match s? with
    | some s => if s.motion = .unset then c.turned else true
    | none => if selectsMotion α b.text then false else c.turned

/-- The step keeps its modes when its line is written with the given selection: a speed that is written
is the speed of the step, a speed that is left out is in effect, a motion that is written is the one
that the edit gives, and no arc keeps its sense when it has to be turned. -/
structure Block.Keeps [Scalar α] (s? : Option (Selection α)) (c : Running α) (b : Block α) : Prop where
  feed : ∀ s ∈ s?, b.feed = s.feed.getD c.feed
  spindle : ∀ s ∈ s?, b.spindle = s.spindle.getD c.spindle
  motion : ∀ s ∈ s?, s.motion ≠ .unset → s.motion = b.motion.turned flips
  arc : flips → b.hasCoordinates = true → b.motion.isArc = true → (c.after s? b).turned = true

variable {flips} in
theorem Block.keeps_none [Scalar α] (c : Running α) (b : Block α) :
    b.Keeps flips none c ↔
      (flips → b.hasCoordinates = true → b.motion.isArc = true → (c.after none b).turned = true) :=
  ⟨fun h => h.arc, fun h => ⟨by simp, by simp, by simp, h⟩⟩

variable {flips} in
theorem Block.keeps_some [Scalar α] (s : Selection α) (c : Running α) (b : Block α) :
    b.Keeps flips (some s) c ↔
      b.feed = s.feed.getD c.feed ∧ b.spindle = s.spindle.getD c.spindle ∧
        (s.motion ≠ .unset → s.motion = b.motion.turned flips) ∧
        (flips → b.hasCoordinates = true → b.motion.isArc = true → (c.after (some s) b).turned = true) :=
  ⟨fun h => ⟨h.feed s rfl, h.spindle s rfl, h.motion s rfl, h.arc⟩,
    fun ⟨hfeed, hspindle, hmotion, harc⟩ =>
      ⟨by simpa using hfeed, by simpa using hspindle, by simpa using hmotion, harc⟩⟩

/-- All steps keep their modes, one after the other. -/
def KeepsModes [Scalar α] (selected : ℕ → Option (Selection α)) : Running α → List (Block α) → Prop
  | _, [] => True
  | c, b :: bs => b.Keeps flips (selected b.number) c ∧ KeepsModes selected (c.after (selected b.number) b) bs

end

section

variable {α : Type} [Scalar α] [DecidableEq α] {flips : Prop} [Decidable flips]

instance (s? : Option (Selection α)) (c : Running α) (b : Block α) : Decidable (b.Keeps flips s? c) :=
  match s? with
  | none => decidable_of_iff _ (b.keeps_none c).symm
  | some s => decidable_of_iff _ (b.keeps_some s c).symm

instance decidableKeepsModes (selected : ℕ → Option (Selection α)) :
    ∀ (c : Running α) (bs : List (Block α)), Decidable (KeepsModes flips selected c bs)
  | _, [] => isTrue trivial
  | c, b :: bs =>
    have := decidableKeepsModes selected (c.after (selected b.number) b) bs
    inferInstanceAs (Decidable (b.Keeps flips (selected b.number) c ∧
      KeepsModes flips selected (c.after (selected b.number) b) bs))

end

/-! ### Running both texts -/

section

variable {α : Type} [Scalar α] {flips : Prop} [Decidable flips] {c : Running α} {m m' : Modal α}

/-- The modes of the two runs before a step. -/
structure Running.Tracks (flips : Prop) [Decidable flips] (c : Running α) (m m' : Modal α) : Prop where
  motion : m'.motion = if c.turned then m.motion.turned flips else m.motion
  absolute : m'.absolute = m.absolute
  feed : m.feed = c.feed ∧ m'.feed = c.feed
  spindle : m.spindle = c.spindle ∧ m'.spindle = c.spindle

/-- The block is one of the line, with the modes that are in effect after it. -/
structure Block.Runs (m : Modal α) (n : ℕ) (line : String) (b : Block α) : Prop where
  number : b.number = n
  text : b.text = line
  motion : b.motion = latest (Word.motion? α) m.motion (wordsOf line)
  absolute : b.absolute = latest (Word.distance? α) m.absolute (wordsOf line)
  feed : b.feed = latest Word.feed? m.feed (wordsOf line)
  spindle : b.spindle = latest Word.spindle? m.spindle (wordsOf line)

theorem Block.runs_read (n : ℕ) (line : String) (m : Modal α) : (Block.read n line m).2.Runs m n line := by
  constructor <;> simp [Block.read_snd, Block.inert, Modal.after]

section Step

variable {line line' : String} {s? : Option (Selection α)} {n n' : ℕ} {b b' : Block α} (hb : b.Runs m n line)
  (hb' : b'.Runs m' n' line')

include hb hb'

/-- Blocks that are known up to a turn leave such modes behind. -/
theorem Block.Runs.tracks (hmotion : b'.motion = if (c.after s? b).turned then b.motion.turned flips else b.motion)
    (habsolute : b'.absolute = b.absolute) (hfeed : b'.feed = b.feed) (hspindle : b'.spindle = b.spindle) :
    (c.after s? b).Tracks flips (m.after line) (m'.after line') := by
  refine ⟨?_, ?_, ⟨hb.feed.symm, ?_⟩, ⟨hb.spindle.symm, ?_⟩⟩
  · rw [Modal.after, Modal.after, ← hb'.motion, ← hb.motion, hmotion]
  · rw [Modal.after, Modal.after, ← hb'.absolute, ← hb.absolute, habsolute]
  · exact hb'.feed.symm.trans hfeed
  · exact hb'.spindle.symm.trans hspindle

variable (h : Rewrites line line' s?) (hc : c.Tracks flips m m')

include h hc

theorem Rewrites.absolute_eq : b'.absolute = b.absolute := by
  rw [hb'.absolute, hb.absolute, h.absolute, hc.absolute]

/-- Where no motion is written, the motion is known up to a turn. -/
theorem Rewrites.motion_eq (hunset : ∀ s ∈ s?, s.motion = .unset) :
    b'.motion = if (c.after s? b).turned then b.motion.turned flips else b.motion := by
  cases s? with
  | none =>
      rw [hb'.motion, hb.motion, h.same rfl, Running.after, hb.text,
        latest_motion?_eq m'.motion m.motion, latest_motion?_eq m.motion m.motion, hc.motion]
      by_cases hselects : selectsMotion α line <;> simp [hselects]
  | some s =>
      have hs := hunset s rfl
      have hinherited : b.motion = m.motion := by
        rw [hb.motion, latest_motion?_eq m.motion m.motion, h.silent s rfl hs]
        rfl
      rw [hb'.motion, h.motion s rfl, if_pos hs, hinherited, hc.motion, Running.after]
      simp only [hs, if_true]

omit hb hb' h hc in
/-- A motion that is known up to a turn is the turned one, unless it is an arc that has not been turned. -/
theorem Running.motion_iff
    (hmotion : b'.motion = if (c.after s? b).turned then b.motion.turned flips else b.motion) :
    (b.hasCoordinates = true → b'.motion = b.motion.turned flips) ↔
      (flips → b.hasCoordinates = true → b.motion.isArc = true → (c.after s? b).turned = true) := by
  rw [hmotion, Motion.turned_iff]
  exact ⟨fun h hflips hb => h hb hflips, fun h hb hflips => h hflips hb⟩

/-- A step on a line, and the same step on the line that is written for it. -/
theorem Rewrites.step (hcoordinates : ∀ s ∈ s?, b.hasCoordinates = true) :
    (b.SameModes flips b' ↔ b.Keeps flips s? c) ∧
      (b.Keeps flips s? c → (c.after s? b).Tracks flips (m.after line) (m'.after line')) := by
  have habsolute := h.absolute_eq hb hb' hc
  cases s? with
  | none =>
      have hfeed : b'.feed = b.feed := by rw [hb'.feed, hb.feed, h.same rfl, hc.feed.1, hc.feed.2]
      have hspindle : b'.spindle = b.spindle := by
        rw [hb'.spindle, hb.spindle, h.same rfl, hc.spindle.1, hc.spindle.2]
      have hmotion := h.motion_eq hb hb' hc (by simp)
      have harc := Running.motion_iff hmotion
      refine ⟨⟨fun hsame => ?_, fun hkeeps => ?_⟩, fun _ => hb.tracks hb' hmotion habsolute hfeed hspindle⟩
      · exact (b.keeps_none c).mpr (harc.mp hsame.motion)
      · exact ⟨hfeed, hspindle, habsolute, harc.mpr hkeeps.arc⟩
  | some s =>
      have hfeed : b'.feed = s.feed.getD c.feed := by rw [hb'.feed, h.feed s rfl, hc.feed.2]
      have hspindle : b'.spindle = s.spindle.getD c.spindle := by
        rw [hb'.spindle, h.spindle s rfl, hc.spindle.2]
      have hsame : b.SameModes flips b' ↔ b.feed = s.feed.getD c.feed ∧ b.spindle = s.spindle.getD c.spindle ∧
          (b.hasCoordinates = true → b'.motion = b.motion.turned flips) :=
        ⟨fun h => ⟨h.feed.symm.trans hfeed, h.spindle.symm.trans hspindle, h.motion⟩,
          fun ⟨hf, hs, hm⟩ => ⟨hfeed.trans hf.symm, hspindle.trans hs.symm, habsolute, hm⟩⟩
      rw [hsame, Block.keeps_some]
      by_cases hunset : s.motion = .unset
      · have hmotion := h.motion_eq hb hb' hc (by simpa using hunset)
        refine ⟨?_, ?_⟩
        · rw [Running.motion_iff hmotion]
          simp [hunset]
        · rintro ⟨hf, hs, -, -⟩
          exact hb.tracks hb' hmotion habsolute (hfeed.trans hf.symm) (hspindle.trans hs.symm)
      · have hwritten : b'.motion = s.motion := by rw [hb'.motion, h.motion s rfl, if_neg hunset]
        have hturned : (c.after (some s) b).turned = true := by
          rw [Running.after]
          simp only [hunset, if_false]
        refine ⟨⟨?_, ?_⟩, ?_⟩
        · rintro ⟨hf, hs, hm⟩
          exact ⟨hf, hs, fun _ => hwritten.symm.trans (hm (hcoordinates s rfl)), fun _ _ _ => hturned⟩
        · rintro ⟨hf, hs, hm, -⟩
          exact ⟨hf, hs, fun _ => hwritten.trans (hm hunset)⟩
        · rintro ⟨hf, hs, hm, -⟩
          refine hb.tracks hb' ?_ habsolute (hfeed.trans hf.symm) (hspindle.trans hs.symm)
          rw [hturned, if_pos rfl]
          exact hwritten.trans (hm hunset)

end Step

theorem Source.readAt_fst (s : Source) (m : Modal α) (n : ℕ) :
    (s.readAt m n).1 = m.after (s.lines.getD n "") := Block.read_fst _ _ _

theorem Source.runs_readAt (s : Source) (m : Modal α) (n : ℕ) :
    (s.readAt m n).2.Runs m n (s.lines.getD n "") := Block.runs_read _ _ _

/-- The program and its listing run the same lines. The steps have the same modes if and only if all
steps of the program keep theirs. -/
theorem sameModes_pass {s s' : Source} {selected : ℕ → Option (Selection α)}
    (h : ∀ n, Rewrites (s.lines.getD n "") (s'.lines.getD n "") (selected n)) (hc : c.Tracks flips m m')
    (ns : List ℕ) :
    List.Forall₂ (Block.SameModes flips) (pass s.readAt m ns).2 (pass s'.readAt m' ns).2 ↔
      KeepsModes flips selected c (pass s.readAt m ns).2 := by
  induction ns generalizing c m m' with
  | nil => simp [KeepsModes]
  | cons n ns ih =>
      obtain ⟨hstep, htracks⟩ := (h n).step (s.runs_readAt m n) (s'.runs_readAt m' n) hc
        fun _ hs => (h n).coordinates _ hs n m
      rw [pass_cons, pass_cons, List.forall₂_cons, KeepsModes, (s.runs_readAt m n).number, s.readAt_fst,
        s'.readAt_fst]
      constructor
      · rintro ⟨hhead, htail⟩
        have hkeeps := hstep.mp hhead
        exact ⟨hkeeps, (ih (htracks hkeeps)).mp htail⟩
      · rintro ⟨hkeeps, htail⟩
        exact ⟨hstep.mpr hkeeps, (ih (htracks hkeeps)).mpr htail⟩

/-- The distance modes are the same in any case. -/
theorem absolute_pass {s s' : Source} {selected : ℕ → Option (Selection α)}
    (h : ∀ n, Rewrites (s.lines.getD n "") (s'.lines.getD n "") (selected n)) (hm : m'.absolute = m.absolute)
    (ns : List ℕ) :
    (pass s'.readAt m' ns).2.map (·.absolute) = (pass s.readAt m ns).2.map (·.absolute) := by
  induction ns generalizing m m' with
  | nil => simp only [pass_nil, List.map_nil]
  | cons n ns ih =>
      have habsolute : (s'.readAt m' n).2.absolute = (s.readAt m n).2.absolute := by
        rw [(s.runs_readAt m n).absolute, (s'.runs_readAt m' n).absolute, (h n).absolute, hm]
      have hafter : (m'.after (s'.lines.getD n "")).absolute = (m.after (s.lines.getD n "")).absolute := by
        simp only [Modal.after, (h n).absolute, hm]
      rw [pass_cons, pass_cons, List.map_cons, List.map_cons, habsolute, s.readAt_fst, s'.readAt_fst, ih hafter]

end

end PartProgram
