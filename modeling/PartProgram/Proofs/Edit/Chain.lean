import PartProgram.Proofs.Edit.Straight

/-! # Lines that follow each other

In a program without calls every line starts from the modes that the line before has left. An edit
changes this on changed lines only, which select their motion themselves.
-/

namespace PartProgram

open Word (latest)

variable {α : Type}

/-! ### Motions up to a mirror -/

/-- The motions are the same, up to the sense of an arc if the arcs have been flipped. -/
def Motion.Like (flips : Prop) (m m' : Motion) : Prop := m = m' ∨ flips ∧ m = m'.mirrored

namespace Motion.Like

variable {flips : Prop} {m m' m'' : Motion}

theorem refl (m : Motion) : m.Like flips m := .inl rfl

theorem symm (h : m.Like flips m') : m'.Like flips m := by
  rcases h with rfl | ⟨hflips, rfl⟩
  · exact .inl rfl
  · exact .inr ⟨hflips, by simp⟩

theorem trans (h : m.Like flips m') (h' : m'.Like flips m'') : m.Like flips m'' := by
  rcases h with rfl | ⟨hflips, rfl⟩
  · exact h'
  · rcases h' with rfl | ⟨-, rfl⟩
    · exact .inr ⟨hflips, rfl⟩
    · exact .inl (by simp)

theorem isEngaged_eq (h : m.Like flips m') : m.isEngaged = m'.isEngaged := by
  rcases h with rfl | ⟨-, rfl⟩
  · rfl
  · cases m' <;> rfl

/-- Only arcs have a sense. -/
theorem eq_of_not_isArc (h : m.Like flips m') (harc : flips → m'.isArc = false) : m = m' := by
  rcases h with rfl | ⟨hflips, rfl⟩
  · rfl
  · have hm := harc hflips
    cases m' <;> simp_all [mirrored, isArc, winding?]

theorem latest (h : m.Like flips m') (f : Word → Option Motion) (ws : List Word) :
    (Word.latest f m ws).Like flips (Word.latest f m' ws) := by
  induction ws generalizing m m' with
  | nil => exact h
  | cons w ws ih =>
      rw [Word.latest_cons, Word.latest_cons]
      cases f w with
      | none => exact ih h
      | some motion => exact ih (.refl motion)

end Motion.Like

/-! ### What a line leaves for the next one -/

/-- The modes that a line finds in effect, and whether the program has ended. -/
structure Carried (α : Type) where
  motion : Motion
  absolute : Bool
  feed : α
  spindle : α
  ended : Bool

/-- What the block leaves for the next line. -/
def Block.leaves (b : Block α) (c : Carried α) : Carried α :=
  ⟨b.motion, b.absolute, b.feed, b.spindle, c.ended || b.programEnd⟩

variable [Scalar α]

/-- What the first line finds. -/
def Carried.start : Carried α := ⟨.unset, true, 0, 0, false⟩

/-- The modes of the block follow from those it finds by the words of its line. A changed block
selects its motion and its speeds itself. A rapid move without Z may count as part of the program
although the program has ended. -/
structure Block.Follows (flips : Prop) (c : Carried α) (b : Block α) : Prop where
  absolute : b.absolute = latest (Word.distance? α) c.absolute (wordsOf b.text)
  ended : b.afterEnd = c.ended ∨ b.afterEnd = false ∧ b.motion = .rapid ∧ b.z = none
  motion : b.modified = false →
    (latest (Word.motion? α) c.motion (wordsOf b.text)).Like flips b.motion
  feed : b.modified = false → b.feed = latest Word.feed? c.feed (wordsOf b.text)
  spindle : b.modified = false → b.spindle = latest Word.spindle? c.spindle (wordsOf b.text)
  selects : b.modified = true → b.motion ≠ .unset

/-- Each line follows the line before it. -/
def Chained (flips : Prop) : Carried α → List (Block α) → Prop
  | _, [] => True
  | c, b :: bs => b.Follows flips c ∧ Chained flips (b.leaves c) bs

variable {flips : Prop}

theorem chained_append {c : Carried α} {xs ys : List (Block α)} :
    Chained flips c (xs ++ ys) ↔
      Chained flips c xs ∧ Chained flips (xs.foldl (fun c b => b.leaves c) c) ys := by
  induction xs generalizing c with
  | nil => simp [Chained]
  | cons x xs ih => simp [Chained, ih, and_assoc]

/-! ### Programs as read -/

namespace ProgramReader

/-- The reader has the modes that a line finds. -/
structure Matches (flips : Prop) (r : ProgramReader α) (c : Carried α) : Prop where
  motion : r.reader.modal.motion.Like flips c.motion
  absolute : r.reader.modal.absolute = c.absolute
  feed : r.reader.modal.feed = c.feed
  spindle : r.reader.modal.spindle = c.spindle
  ended : r.ended = c.ended

end ProgramReader

/-- Lines that are read follow each other. -/
theorem chained_pass_readLine (source : Source) {ls : List (ℕ × String)}
    (h : ∀ l ∈ ls, (LineCodes.ofLine α l.2).call? = none) {r : ProgramReader α} {c : Carried α}
    (hr : r.Matches False c) :
    Chained False c ((pass (ProgramReader.readLine source) r ls).2.map (·.line)) := by
  induction ls generalizing r c with
  | nil => trivial
  | cons l ls ih =>
      obtain ⟨r', b, hb⟩ := ProgramReader.exists_readsLine source r (h l (by simp))
      have hmotion : r.reader.modal.motion = c.motion := hr.motion.eq_of_not_isArc False.elim
      rw [pass_cons, hb.eq, List.map_cons]
      refine ⟨⟨?_, .inl (hb.afterEnd.trans hr.ended), fun _ => .inl ?_, fun _ => ?_, fun _ => ?_, ?_⟩,
        ih (fun l hl => h l (by simp [hl])) ⟨.inl ?_, ?_, ?_, ?_, ?_⟩⟩
      · rw [Entry.ofLine, hb.absolute, hb.text, ← hr.absolute, Modal.after]
      · rw [Entry.ofLine, hb.motion, hb.text, ← hmotion, Modal.after]
      · rw [Entry.ofLine, hb.feed, hb.text, ← hr.feed, Modal.after]
      · rw [Entry.ofLine, hb.spindle, hb.text, ← hr.spindle, Modal.after]
      · simp [Entry.ofLine, hb.modified]
      · rw [hb.modal, Block.leaves, Entry.ofLine, hb.motion]
      · rw [hb.modal, Block.leaves, Entry.ofLine, hb.absolute]
      · rw [hb.modal, Block.leaves, Entry.ofLine, hb.feed]
      · rw [hb.modal, Block.leaves, Entry.ofLine, hb.spindle]
      · rw [hb.ended, Block.leaves, Entry.ofLine, hb.programEnd, hr.ended]

theorem Block.follows_unplaced {c : Carried α} {b : Block α} :
    b.unplaced.Follows flips c ↔ b.Follows flips c :=
  ⟨fun h => ⟨h.absolute, h.ended, h.motion, h.feed, h.spindle, h.selects⟩,
    fun h => ⟨h.absolute, h.ended, h.motion, h.feed, h.spindle, h.selects⟩⟩

theorem chained_map_unplaced {c : Carried α} {bs : List (Block α)} :
    Chained flips c (bs.map Block.unplaced) ↔ Chained flips c bs := by
  induction bs generalizing c with
  | nil => exact Iff.rfl
  | cons b bs ih => exact and_congr Block.follows_unplaced ih

namespace Program

theorem chained_ofLines {lines : List String} {settings : Settings α} {machine : Machine α}
    (h : ∀ line ∈ lines, (LineCodes.ofLine α line).call? = none) :
    Chained False .start (ofLines lines settings machine).lines := by
  rw [← chained_map_unplaced, ofLines_eq, lines_place,
    chained_map_unplaced]
  refine chained_pass_readLine _ (fun l hl => h l.2 ?_) ⟨.refl _, rfl, rfl, rfl, rfl⟩
  rw [← map_snd_mapIdx lines]
  exact List.mem_map_of_mem hl

end Program

end PartProgram
