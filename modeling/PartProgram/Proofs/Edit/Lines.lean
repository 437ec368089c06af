import Mathlib.Data.List.Forall2
import Mathlib.Data.List.InsertIdx
import PartProgram.Edit.Basic
import PartProgram.Proofs.Pass

/-! # Lines under an edit

An edit changes the words of the path of a line, and marks the lines that it has changed. An offset
may add a line of its own.
-/

namespace PartProgram

variable {α : Type}

namespace AxisWords

variable (words : AxisWords α) (vx vy : Option α)

/-- The words of a line whose coordinates in the plane have been written anew. -/
theorem get_set_plane (m : MirrorAxis) :
    ((words.set .x vx).set .y vy).get m.axis = match m with | .x => vx | .y => vy := by
  cases m with
  | x => exact (get_set_of_ne _ _ (by decide)).trans (get_set_self _ _ _)
  | y => exact get_set_self _ _ _

theorem get_set_plane_of_ne {axis : Axis} (hx : axis ≠ .x) (hy : axis ≠ .y) :
    ((words.set .x vx).set .y vy).get axis = words.get axis := by
  rw [get_set_of_ne _ _ hy, get_set_of_ne _ _ hx]

end AxisWords

namespace Block

/-- The second block is the first one with other words for its path. It is marked as changed if it
has other words, and a mark is never taken back. -/
structure EditOf (b b' : Block α) : Prop where
  kept : b' = { b with
    motion := b'.motion, axes := b'.axes, i := b'.i, j := b'.j, place := b'.place
    modified := b'.modified }
  same : b'.modified = false →
    b.modified = false ∧ b'.motion = b.motion ∧ b'.axes = b.axes ∧ b'.i = b.i ∧ b'.j = b.j

namespace EditOf

section

variable {b b' : Block α} (h : EditOf b b')

include h

theorem number : b'.number = b.number := by rw [h.kept]

theorem text : b'.text = b.text := by rw [h.kept]

theorem extra : b'.extra = b.extra := by rw [h.kept]

theorem feed : b'.feed = b.feed := by rw [h.kept]

theorem spindle : b'.spindle = b.spindle := by rw [h.kept]

theorem absolute : b'.absolute = b.absolute := by rw [h.kept]

theorem machineFrame : b'.machineFrame = b.machineFrame := by rw [h.kept]

theorem call : b'.call = b.call := by rw [h.kept]

theorem programEnd : b'.programEnd = b.programEnd := by rw [h.kept]

theorem hidden : b'.hidden = b.hidden := by rw [h.kept]

theorem isEditable : b'.isEditable = b.isEditable := by rw [h.kept]; rfl

theorem afterEnd : b'.afterEnd = b.afterEnd := by rw [h.kept]

end

theorem refl (b : Block α) : EditOf b b := ⟨rfl, by simp⟩

theorem modified {b b' : Block α} (h : EditOf b b') (hm : b.modified = true) : b'.modified = true := by
  cases hm' : b'.modified with
  | true => rfl
  | false => exact absurd (h.same hm').1 (by simp [hm])

theorem trans {a b c : Block α} (h₁ : EditOf a b) (h₂ : EditOf b c) : EditOf a c where
  kept := by rw [h₂.kept, h₁.kept]
  same := by
    intro hc
    obtain ⟨hb, hm₂, ha₂, hi₂, hj₂⟩ := h₂.same hc
    obtain ⟨ha, hm₁, ha₁, hi₁, hj₁⟩ := h₁.same hb
    exact ⟨ha, hm₂.trans hm₁, ha₂.trans ha₁, hi₂.trans hi₁, hj₂.trans hj₁⟩

theorem of_modified {b b' : Block α} (h : b'.modified = true)
    (hkept : b' = { b with
      motion := b'.motion, axes := b'.axes, i := b'.i, j := b'.j, place := b'.place
      modified := b'.modified }) : EditOf b b' :=
  ⟨hkept, by simp [h]⟩

end EditOf

theorem editOf_place (b : Block α) (place : Placement α) : EditOf b { b with place } := ⟨rfl, by simp⟩

theorem editOf_modified (b : Block α) : EditOf b { b with modified := true } := ⟨rfl, by simp⟩

theorem editOf_withAxis (b : Block α) (axis : Axis) (value : Option α) :
    EditOf b (b.withAxis axis value) := .of_modified rfl rfl

theorem editOf_withoutZ (b : Block α) : EditOf b b.withoutZ := by
  rw [withoutZ]
  split
  · exact b.editOf_withAxis .z none
  · exact .refl b

variable [Scalar α]

theorem editOf_mirrored (m : MirrorAxis) (sum : α) (b : Block α) : EditOf b (b.mirrored m sum) := by
  rw [mirrored]
  split
  · exact .of_modified rfl rfl
  · exact .refl b

theorem editOf_stretched (fx fy : α) (b : Block α) : EditOf b (b.stretched fx fy) := by
  rw [stretched]
  split
  · exact .of_modified rfl rfl
  · exact .refl b

theorem editOf_turned (s : Similarity α) (b : Block α) (copies : List (Point α)) :
    EditOf b (b.turned s copies) := by
  simp only [turned]
  split
  · split <;> exact .of_modified rfl rfl
  · exact .refl b

theorem turned_axes (s : Similarity α) (b : Block α) (copies : List (Point α)) :
    (b.turned s copies).axes = b.turnedAxes s copies := by
  simp only [turned]
  split
  · split <;> rfl
  · rename_i h
    have hplane : b.hasXY = false := by
      simp only [writesPlane, Bool.or_eq_true, not_or] at h
      simpa using h.1.1
    rw [turnedAxes, hplane]
    rfl

theorem turned_motion (s : Similarity α) (b : Block α) (copies : List (Point α)) :
    (b.turned s copies).motion = b.motion := by
  simp only [turned]
  split
  · split <;> rfl
  · rfl

theorem z_turnedAxes (s : Similarity α) (copies : List (Point α)) (b : Block α) :
    (b.turnedAxes s copies).get .z = b.axes.get .z := by
  rw [turnedAxes]
  split
  · dsimp only
    split <;> split <;> simp [AxisWords.get_set_of_ne]
  · rfl

theorem editOf_shifted (delta : Point α) (pending : Pending) (b : Block α) :
    EditOf b (b.shifted delta pending).2 := by
  rw [shifted]
  split
  · split
    · exact .of_modified rfl rfl
    · exact .refl b
  · split
    · exact .of_modified rfl rfl
    · exact .refl b

/-- What a block and the pieces of its moves have in common is kept when it is cut. -/
theorem forall_mem_linearized {P : Block α → Prop} {b : Block α} (hb : P b)
    (hpiece : ∀ c : Cut α, c.source = b → ∀ k, P (c.piece k)) (arcStep : α) (lineStep : Option α) (places : ℕ) :
    ∀ b' ∈ b.linearized arcStep lineStep places, P b' := by
  have hself : ∀ b' ∈ [b], P b' := by simpa using hb
  have hpieces : ∀ c : Cut α, c.source = b → ∀ b' ∈ c.pieces, P b' := by
    intro c hc b' hb'
    obtain ⟨k, -, rfl⟩ := List.mem_map.mp hb'
    exact hpiece c hc (k + 1)
  rw [linearized.eq_def]
  split
  · exact hself
  · split
    · rw [flattenArc]
      split
      · exact hself
      · exact hpieces _ rfl
    · split
      · rw [splitLine]
        split
        · exact hpieces _ rfl
        · exact hself
      · exact hself

theorem editOf_step (machine : Machine α) (t : Tool α) (b : Block α) :
    EditOf b (t.step machine b).2 := by
  rw [Tool.step]
  split <;> exact b.editOf_place _

end Block

namespace Program

/-- Every line of the second program is an edited line of the first. -/
def EditsLines (p q : Program α) : Prop := List.Forall₂ Block.EditOf p.lines q.lines

theorem EditsLines.trans {p q r : Program α} (h₁ : p.EditsLines q) (h₂ : q.EditsLines r) :
    p.EditsLines r := by
  have htrans : ∀ {xs ys zs : List (Block α)}, List.Forall₂ Block.EditOf xs ys →
      List.Forall₂ Block.EditOf ys zs → List.Forall₂ Block.EditOf xs zs := by
    intro xs ys zs h₁ h₂
    induction h₁ generalizing zs with
    | nil =>
        cases h₂
        exact .nil
    | cons hx _ ih =>
        cases h₂ with
        | cons hy h₂ => exact .cons (hx.trans hy) (ih h₂)
  exact htrans h₁ h₂

section Lines

variable {R : Block α → Block α → Prop} (p : Program α)

theorem forall₂_lines {p q : Program α}
    (h : List.Forall₂ (fun e e' : Entry α => R e.line e'.line) p.entries q.entries) :
    List.Forall₂ R p.lines q.lines := by
  rw [lines, lines, List.forall₂_map_left_iff, List.forall₂_map_right_iff]
  exact h

theorem forall₂_editLines {f : Block α → Block α}
    (h : ∀ b ∈ p.lines, R b (if b.isEditable then f b else b)) :
    List.Forall₂ R p.lines (p.editLines f).lines := by
  apply forall₂_lines
  rw [editLines, mapLines, List.forall₂_map_right_iff, List.forall₂_same]
  intro e he
  exact h e.line (List.mem_map_of_mem he)

variable [Scalar α]

theorem forall₂_turn (s : Similarity α) (hrefl : ∀ b, R b b)
    (h : ∀ b copies, b.isEditable = true → R b (b.turned s copies)) :
    List.Forall₂ R p.lines (p.turn s).lines := by
  apply forall₂_lines
  rw [turn, List.forall₂_iff_get]
  refine ⟨by simp, ?_⟩
  intro n hn hn'
  simp only [List.get_eq_getElem, List.getElem_mapIdx]
  split
  · rename_i heditable
    exact h _ _ heditable
  · exact hrefl _

theorem forall₂_shiftLines (delta : Point α) (hrefl : ∀ b, R b b)
    (h : ∀ pending b, b.isEditable = true → R b (b.shifted delta pending).2) :
    List.Forall₂ R p.lines (p.shiftLines delta).lines := by
  apply forall₂_lines
  apply forall₂_pass
  intro pending e
  split
  · rename_i heditable
    exact h pending e.line heditable
  · exact hrefl e.line

end Lines

theorem editsLines_editLines {f : Block α → Block α} (hf : ∀ b, Block.EditOf b (f b))
    (p : Program α) : p.EditsLines (p.editLines f) := by
  apply p.forall₂_editLines
  intro b _
  split
  · exact hf b
  · exact .refl b

variable [Scalar α]

theorem editsLines_turn (p : Program α) (s : Similarity α) : p.EditsLines (p.turn s) :=
  p.forall₂_turn s .refl fun b copies _ => Block.editOf_turned s b copies

theorem editsLines_shiftLines (p : Program α) (delta : Point α) : p.EditsLines (p.shiftLines delta) :=
  p.forall₂_shiftLines delta .refl fun pending b _ => Block.editOf_shifted delta pending b

theorem editsLines_place (p : Program α) (machine : Machine α) : p.EditsLines (p.place machine) := by
  apply forall₂_lines
  apply forall₂_pass
  intro t e
  exact Block.editOf_step machine t e.line

/-- Every edit but an offset edits the lines one by one. -/
theorem editsLines_change {edit : Edit α} (h : ∀ anchor extra, edit ≠ .offset anchor extra)
    (p : Program α) (settings : Settings α) : p.EditsLines (edit.change p settings) := by
  cases edit with
  | mirror axis => exact p.editsLines_editLines (Block.editOf_mirrored axis _)
  | turn similarity => exact p.editsLines_turn similarity
  | stretch x y => exact p.editsLines_editLines (Block.editOf_stretched _ _)
  | offset anchor extra => exact absurd rfl (h anchor extra)
  | dropZ => exact p.editsLines_editLines Block.editOf_withoutZ
  | follow surface => exact List.forall₂_same.mpr fun b _ => .refl b

/-! ### The line that an offset adds -/

omit [Scalar α] in
theorem lines_insertLine (p : Program α) (index : ℕ) (b : Block α) :
    (p.insertLine index b).lines = p.lines.insertIdx (min index p.lines.length) b := by
  simp [insertLine, lines, List.map_insertIdx, Function.comp_def, Entry.ofLine]

end Program

/-- The line with the move that carries an offset is added after a retract, with the speeds of the
retract, or in front of relative coordinates. In the latter case it takes its speeds from the line
before, and the line with the coordinates is marked. -/
inductive WithMove [Scalar α] (comment : String) : List (Block α) → List (Block α) → Prop where
  | unchanged (lines) : WithMove comment lines lines
  | afterRetract (before b after) (h : b.isRetract = true) :
      WithMove comment (before ++ b :: after)
        (before ++ b :: offsetMove ⟨before.length + 1, false⟩ comment b.feed b.spindle :: after)
  | atCoordinates (before b after) (h : b.absolute = false) (hb : b.hasCoordinates = true) :
      WithMove comment (before ++ b :: after)
        (before ++ offsetMove ⟨before.length, true⟩ comment (before.getLast?.getD b).feed
          (before.getLast?.getD b).spindle :: { b with modified := true } :: after)

/-- What holds of all lines, and of the move, still holds when the move has been added. -/
theorem WithMove.forall_mem [Scalar α] {comment : String} {bs bs' : List (Block α)} (h : WithMove comment bs bs')
    {P : Block α → Prop} (hmove : ∀ slot feed spindle, P (offsetMove slot comment feed spindle))
    (hmark : ∀ b, b.hasCoordinates = true → P b → P { b with modified := true }) (hbs : ∀ b ∈ bs, P b) :
    ∀ b ∈ bs', P b := by
  cases h with
  | unchanged => exact hbs
  | afterRetract before b after =>
      intro b' hb'
      rcases List.mem_append.mp hb' with hb' | hb'
      · exact hbs b' (by simp [hb'])
      · rcases List.mem_cons.mp hb' with rfl | hb'
        · exact hbs b' (by simp)
        · rcases List.mem_cons.mp hb' with rfl | hb'
          · exact hmove _ _ _
          · exact hbs b' (by simp [hb'])
  | atCoordinates before b after _ hb =>
      intro b' hb'
      rcases List.mem_append.mp hb' with hb' | hb'
      · exact hbs b' (by simp [hb'])
      · rcases List.mem_cons.mp hb' with rfl | hb'
        · exact hmove _ _ _
        · rcases List.mem_cons.mp hb' with rfl | hb'
          · exact hmark b hb (hbs b (by simp))
          · exact hbs b' (by simp [hb'])

theorem exists_of_findIdx? {β : Type} {p : β → Bool} {xs : List β} {n : ℕ}
    (h : xs.findIdx? p = some n) :
    ∃ before x after, xs = before ++ x :: after ∧ before.length = n ∧ p x := by
  obtain ⟨hn, hp, -⟩ := List.findIdx?_eq_some_iff_getElem.mp h
  refine ⟨xs.take n, xs[n], xs.drop (n + 1), ?_, ?_, hp⟩
  · simp
  · simp [Nat.le_of_lt hn]

theorem insertIdx_length_append {β : Type} (before after : List β) (x : β) :
    (before ++ after).insertIdx before.length x = before ++ x :: after := by
  induction before with
  | nil => simp
  | cons b before ih => simp [ih]

theorem modify_length_append {β : Type} (f : β → β) (before after : List β) (x : β) :
    (before ++ x :: after).modify before.length f = before ++ f x :: after := by
  induction before with
  | nil => simp
  | cons b before ih => simp [ih]

namespace Program

variable [Scalar α]

omit [Scalar α] in
theorem lines_modify (p : Program α) (index : ℕ) (f : Block α → Block α) :
    ({ p with entries := p.entries.modify index fun e => { e with line := f e.line } } :
      Program α).lines = p.lines.modify index f := by
  apply List.ext_getElem?
  intro n
  simp only [lines, List.getElem?_map, List.getElem?_modify]
  cases p.entries[n]? with
  | none => simp
  | some e => by_cases h : index = n <;> simp [h]

theorem withMove_lines (p : Program α) (comment : String) :
    WithMove comment p.lines (p.withOffsetMove comment).lines := by
  rw [withOffsetMove]
  cases hslot : if p.containsRelative then offsetSlot p.lines else none with
  | none => exact .unchanged _
  | some slot =>
      have hslot : offsetSlot p.lines = some slot := by
        split at hslot
        · exact hslot
        · simp at hslot
      have hlength : p.entries.length = p.lines.length := by simp [lines]
      rw [offsetSlot] at hslot
      split at hslot
      · rename_i n hn
        obtain ⟨before, b, after, hlines, rfl, hb⟩ := exists_of_findIdx? hn
        split at hslot
        · simp at hslot
        · obtain rfl : (⟨before.length + 1, false⟩ : OffsetSlot) = slot := by simpa using hslot
          have hmin : Nat.min (before.length + 1 - 1) (p.lines.length - 1) = before.length := by
            simp [hlines]
          have hmove : ∀ move : Block α,
              (before ++ b :: after).insertIdx (min (before.length + 1) (before ++ b :: after).length)
                move = before ++ b :: move :: after := by
            intro move
            have hinsert := insertIdx_length_append (before ++ [b]) after move
            simpa using hinsert
          simp only [hmin, Bool.false_eq_true, if_false, lines_insertLine]
          rw [hlines, List.getElem?_append_right (Nat.le_refl _)]
          simp only [Nat.sub_self, List.getElem?_cons_zero, Option.elim_some, hmove]
          exact .afterRetract before b after hb
      · obtain ⟨n, hn, rfl⟩ := Option.map_eq_some_iff.mp hslot
        obtain ⟨before, b, after, hlines, rfl, hb⟩ := exists_of_findIdx? hn
        have hprevious : p.lines[Nat.min (before.length - 1) (p.lines.length - 1)]? =
            some (before.getLast?.getD b) := by
          rw [hlines]
          rcases List.eq_nil_or_concat before with rfl | ⟨init, last, rfl⟩
          · simp
          · have hmin : Nat.min ((init ++ [last]).length - 1) ((init ++ [last] ++ b :: after).length - 1) =
                init.length := by
              simp
            rw [List.concat_eq_append, hmin]
            simp
        have hmove : ∀ move : Block α,
            (before ++ b :: after).insertIdx (min before.length (before ++ b :: after).length) move =
              before ++ move :: b :: after := by
          intro move
          simpa using insertIdx_length_append before (b :: after) move
        have hmark : ∀ move : Block α,
            (before ++ move :: b :: after).modify (before.length + 1)
                (fun b => { b with modified := true }) =
              before ++ move :: { b with modified := true } :: after := by
          intro move
          simpa using modify_length_append (fun b : Block α => { b with modified := true })
            (before ++ [move]) after b
        have hmarked : ∀ q : Program α, ({ q with
            entries := q.entries.modify (before.length + 1) fun e =>
              { e with line := { e.line with modified := true } } } : Program α).lines =
            q.lines.modify (before.length + 1) fun b => { b with modified := true } := fun q =>
          q.lines_modify (before.length + 1) fun b => { b with modified := true }
        simp only [if_true, hprevious, Option.elim_some]
        rw [hmarked, lines_insertLine, hlines, hmove, hmark]
        simp only [Bool.and_eq_true, Bool.not_eq_true'] at hb
        exact .atCoordinates before b after hb.1.2 hb.2

end Program

/-! ### Carrying out an edit -/

/-- A program without lines is left alone. -/
theorem Edit.apply_of_isEmpty [Scalar α] (edit : Edit α) {p : Program α} (hp : p.isEmpty = true)
    (settings : Settings α) (machine : Machine α) : edit.apply p settings machine = (p, "") := if_pos hp

theorem Edit.apply_eq [Scalar α] {edit : Edit α} (h : ∀ surface, edit ≠ .follow surface) {p : Program α}
    (hp : p.isEmpty = false) (settings : Settings α) (machine : Machine α) :
    edit.apply p settings machine =
      ((edit.change p settings).place machine,
        ((edit.change p settings).place machine).text settings.format) := by
  cases edit with
  | follow surface => exact absurd rfl (h surface)
  | mirror | turn | stretch | offset | dropZ => simp only [apply, hp, Bool.false_eq_true, if_false]

end PartProgram
