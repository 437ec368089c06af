import PartProgram.Proofs.Edit.Turning
import PartProgram.Proofs.Program.Settled

/-! # The turn that turns nothing

Turned by nothing and at its own scale, a program should stay as it is. Every line is rewritten with the words
that its place, or its displacement, asks for, but it is rewritten once, while its copies run elsewhere and
perhaps in another distance mode. The words that a line gets leave its steps in place unless they are read in
another mode than the one they have been made for, or stand for a coordinate in which the steps differ.
-/

namespace PartProgram

/-! ### Copies of a line -/

namespace Program

section

variable {α : Type} (p : Program α)

/-- The copies of a line, in the order of execution. -/
def copiesOf (number : ℕ) : List (Block α) :=
  ((p.entries.flatMap (·.copies)).filter (·.definition == number)).map (·.block)

/-- The places that a line is turned from are those where its copies end. -/
theorem getD_copyTargets {number : ℕ} (h : number < p.entries.length) :
    p.copyTargets.getD number [] = (p.copiesOf number).map (·.place.target.xy) := by
  have hfold : ∀ (cs : List (Copy α)) (targets : Array (List (Point α))), number < targets.size →
      (cs.foldr (fun c targets => targets.modify c.definition (c.block.place.target.xy :: ·)) targets)[number]? =
        some (((cs.filter (·.definition == number)).map (·.block.place.target.xy)) ++ targets.getD number []) := by
    intro cs targets hsize
    induction cs with
    | nil => simp [hsize]
    | cons c cs ih =>
        rw [List.foldr_cons, Array.getElem?_modify, ih]
        by_cases hc : c.definition = number <;> simp [hc]
  rw [copyTargets, Array.getD_eq_getD_getElem?, hfold _ _ (by simpa using h), Option.getD_some, copiesOf]
  simp [h, Array.getD]

end

variable {α : Type} [Scalar α] {machine : Machine α} {p : Program α}

omit [Scalar α] in
theorem mem_executed_of_mem_copiesOf {number : ℕ} {b : Block α} (h : b ∈ p.copiesOf number) : b ∈ p.executed := by
  obtain ⟨c, hc, rfl⟩ := List.mem_map.mp h
  obtain ⟨e, he, hc⟩ := List.mem_flatMap.mp (List.mem_filter.mp hc).1
  exact List.mem_flatMap.mpr ⟨e, he, List.mem_cons_of_mem _ (List.mem_map_of_mem hc)⟩

theorem Settled.number_of_mem_copiesOf (h : p.Settled machine) {number : ℕ} {b : Block α}
    (hb : b ∈ p.copiesOf number) : b.number = number := by
  obtain ⟨c, hc, rfl⟩ := List.mem_map.mp hb
  obtain ⟨hmem, hnumber⟩ := List.mem_filter.mp hc
  obtain ⟨e, he, hc⟩ := List.mem_flatMap.mp hmem
  exact (h.copied e he c hc).trans (by simpa using hnumber)

/-- What runs is a line or one of its copies. -/
theorem Settled.line_or_mem_copiesOf (h : p.Settled machine) {b : Block α} (hb : b ∈ p.executed) :
    p.lines[b.number]? = some b ∨ b ∈ p.copiesOf b.number := by
  rcases h.line_or_copy hb with hself | ⟨e, he, c, hc, rfl, hnumber⟩
  · exact .inl hself
  · exact .inr (List.mem_map_of_mem (List.mem_filter.mpr ⟨List.mem_flatMap.mpr ⟨e, he, hc⟩, by simp [hnumber]⟩))

/-- The line turned, given where its copies run. -/
def turnedLine (p : Program α) (s : Similarity α) (line : Block α) : Block α :=
  line.turned s ((p.copiesOf line.number).map (·.place.target.xy))

theorem Settled.turn_eq_mapLines (h : p.Settled machine) (s : Similarity α) :
    p.turn s = p.mapLines (p.turnedLine s) := by
  simp only [turn, mapLines]
  congr 1
  apply List.ext_getElem?
  intro n
  rw [List.getElem?_mapIdx, List.getElem?_map]
  cases hentry : p.entries[n]? with
  | none => rfl
  | some e =>
      have hline : p.lines[n]? = some e.line := by
        rw [lines, List.getElem?_map, hentry]
        rfl
      obtain ⟨hn, -⟩ := List.getElem?_eq_some_iff.mp hentry
      rw [Option.map_some, Option.map_some, if_pos (h.editable _ (List.mem_of_getElem? hline)), getD_copyTargets p hn,
        turnedLine, h.numbered n _ hline]

theorem rewordOf_turnedLine (s : Similarity α) (line : Block α) : line.RewordOf (p.turnedLine s line) := by
  refine ⟨line.editOf_turned s _, ?_, .inl (line.turned_motion s _)⟩
  simp only [turnedLine, Block.turned]
  split
  · split <;> rfl
  · rfl

end Program

/-! ### Where changed steps lead -/

/-- A run takes the tool where it has gone before exactly if every changed block leads from where its step
starts to where it ends. -/
theorem Tool.targets_pass_map_iff {α : Type} [Scalar α] {machine : Machine α} {f : Block α → Block α}
    {bs : List (Block α)} {t t' : Tool α} (hplaced : (pass (step machine) t bs).2 = bs)
    (hposition : t'.position = t.position) :
    (pass (step machine) t' (bs.map f)).2.map (·.place.target) = bs.map (·.place.target) ↔
      ∀ b ∈ bs, (f b).targetFrom machine b.place.origin = b.place.target := by
  induction bs generalizing t t' with
  | nil => simp
  | cons b bs ih =>
      rw [pass_cons] at hplaced
      obtain ⟨hb, hplaced⟩ := List.cons.inj hplaced
      have horigin : b.place.origin = t.position := by rw [← hb, step_origin]
      have htarget : b.place.target = (t.step machine b).1.position := by rw [step_position, ← step_target, hb]
      rw [List.map_cons, pass_cons, List.map_cons, List.map_cons, List.cons.injEq, List.forall_mem_cons, step_target,
        hposition, ← horigin]
      refine and_congr_right fun hstep => ih hplaced ?_
      rw [step_position, hposition, ← horigin, hstep, htarget]

namespace Block

/-- The coordinate words of a turned line: those that it has, and those that it lacks if they are filled in. -/
theorem get_turnedAxes {α : Type} [Scalar α] (s : Similarity α) (copies : List (Point α)) (b : Block α) (m : MirrorAxis) :
    (b.turnedAxes s copies).get m.axis =
      if b.hasXY && ((b.turnedEnd s copies).2 || (b.axes.get m.axis).isSome) then
        some (m.along (b.turnedEnd s copies).1)
      else none := by
  have hset : ∀ (c : Bool) (words : AxisWords α) (axis other : Axis) (v : Option α),
      (if c then words.set axis v else words).get other = if c && other = axis then v else words.get other := by
    intro c words axis other v
    cases c <;> simp [AxisWords.set]
  have hself : ∀ axis, (b.axes.get axis).isSome = false → b.axes.get axis = none := by simp
  rw [turnedAxes]
  split
  · rename_i hwords
    generalize b.turnedEnd s copies = q
    obtain ⟨q, fill⟩ := q
    rw [hwords, Bool.true_and]
    cases m with
    | x =>
        change AxisWords.get _ .x = if (fill || b.x.isSome) = true then some q.x else none
        rw [hset, hset]
        cases hfill : fill || b.x.isSome with
        | false => simpa using hself .x (Bool.or_eq_false_iff.mp hfill).2
        | true => simp
    | y =>
        change AxisWords.get _ .y = if (fill || b.y.isSome) = true then some q.y else none
        rw [hset, hset]
        cases hfill : fill || b.y.isSome with
        | false => simpa using hself .y (Bool.or_eq_false_iff.mp hfill).2
        | true => simp
  · rename_i hwords
    obtain ⟨hx, hy⟩ := Bool.or_eq_false_iff.mp ((Bool.not_eq_true _).mp hwords)
    rw [(Bool.not_eq_true _).mp hwords, Bool.false_and, if_neg Bool.false_ne_true]
    cases m with
    | x => exact hself .x hx
    | y => exact hself .y hy

/-- A turned line keeps the coordinate words that it has. -/
theorem isSome_get_turnedAxes {α : Type} [Scalar α] (s : Similarity α) (copies : List (Point α)) {b : Block α}
    {m : MirrorAxis} (h : (b.axes.get m.axis).isSome = true) :
    ((b.turnedAxes s copies).get m.axis).isSome = true := by
  have hxy : b.hasXY = true := by
    cases m
    · exact Bool.or_eq_true_iff.mpr (.inl h)
    · exact Bool.or_eq_true_iff.mpr (.inr h)
  rw [get_turnedAxes, hxy, h, Bool.or_true, Bool.true_and, if_pos rfl, Option.isSome_some]

variable {α : Type} [Field α] [LinearOrder α] [IsStrictOrderedRing α] [FloorRing α] [PlaneFunctions α]

omit [IsStrictOrderedRing α] in
/-- A block leads on to the same coordinate with another word if the word stands for the coordinate, or for the
displacement. -/
theorem axisTarget_eq_iff {b b' : Block α} (habsolute : b'.absolute = b.absolute) (hframe : b.machineFrame = false)
    (hframe' : b'.machineFrame = false) {axis : Axis}
    (hkept : (b.axes.get axis).isSome = true → (b'.axes.get axis).isSome = true) (previous offset : α) :
    b'.axisTarget axis previous offset = b.axisTarget axis previous offset ↔
      ∀ v ∈ b'.axes.get axis,
        v = (b.axes.get axis).getD (if b.absolute then b.axisTarget axis previous offset else 0) := by
  cases hword' : b'.axes.get axis with
  | none =>
      have hword : b.axes.get axis = none := by
        rw [hword'] at hkept
        simpa using hkept
      simp [axisTarget, hword, hword']
  | some v =>
      cases hword : b.axes.get axis with
      | none => cases habs : b.absolute <;> simp [axisTarget, hword, hword', habsolute, habs, hframe']
      | some w => cases habs : b.absolute <;> simp [axisTarget, hword, hword', habsolute, habs, hframe, hframe']

omit [IsStrictOrderedRing α] in
theorem targetFrom_eq_iff {b b' : Block α} (habsolute : b'.absolute = b.absolute) (hframe : b.machineFrame = false)
    (hframe' : b'.machineFrame = false) (hz : b'.axes.get .z = b.axes.get .z)
    (hkept : ∀ m : MirrorAxis, (b.axes.get m.axis).isSome = true → (b'.axes.get m.axis).isSome = true)
    (machine : Machine α) (p : Position α) :
    b'.targetFrom machine p = b.targetFrom machine p ↔
      ∀ m : MirrorAxis, ∀ v ∈ b'.axes.get m.axis,
        v = (b.axes.get m.axis).getD (if b.absolute then m.along (b.targetFrom machine p).xy else 0) := by
  have hx := axisTarget_eq_iff habsolute hframe hframe' (hkept .x) p.x machine.workOffset.x
  have hy := axisTarget_eq_iff habsolute hframe hframe' (hkept .y) p.y machine.workOffset.y
  have hz' : b'.axisTarget .z p.z machine.workOffset.z = b.axisTarget .z p.z machine.workOffset.z := by
    simp only [axisTarget, hz, habsolute, hframe, hframe']
  simp only [targetFrom, hz', Position.mk.injEq, and_true]
  constructor
  · rintro ⟨htx, hty⟩ m
    cases m with
    | x => exact hx.mp htx
    | y => exact hy.mp hty
  · exact fun h => ⟨hx.mpr (h .x), hy.mpr (h .y)⟩

end Block

/-! ### Words of a turn by nothing -/

section

variable {α : Type} [Field α] [LinearOrder α] [IsStrictOrderedRing α] [FloorRing α] [PlaneFunctions α]

variable (hcos : Scalar.cos (0 : α) = 1) (hsin : Scalar.sin (0 : α) = 0) (pivot : Point α)

include hcos hsin

omit [IsStrictOrderedRing α] in
theorem Similarity.ofVector_unturned (v : Point α) : ofVector ⟨0, 1, pivot⟩ v = v := by
  have hzero : Scalar.toRadians (0 : α) = 0 := zero_mul _
  rw [ofVector_eq]
  ext <;> simp [hzero, hcos, hsin]

omit [IsStrictOrderedRing α] in
theorem Block.turnedEnd_unturned (copies : List (Point α)) (b : Block α) :
    b.turnedEnd ⟨0, 1, pivot⟩ copies =
      if b.absolute then b.turnedFrom copies else (⟨b.x.getD 0, b.y.getD 0⟩, true) := by
  have hzero : (Scalar.ofNat 0 : α) = 0 := Nat.cast_zero
  rw [turnedEnd]
  split
  · change (Similarity.ofPoint _ (b.turnedFrom copies).1, (b.turnedFrom copies).2) = _
    rw [Similarity.ofPoint, Similarity.ofVector_unturned hcos hsin]
    refine Prod.ext ?_ rfl
    ext
    · exact sub_add_cancel _ _
    · exact sub_add_cancel _ _
  · rw [Similarity.ofVector_unturned hcos hsin, ← hzero]
    rfl

end

/-! ### Steps that stay where they are -/

namespace Block

variable {α : Type} [Field α] [LinearOrder α] [IsStrictOrderedRing α] [FloorRing α] [PlaneFunctions α]

/-- The step goes where it has gone before when its line has been rewritten by a turn that turns nothing. -/
structure Rests (b line : Block α) (copies : List (Block α)) : Prop where
  /-- What a relative line lacks is written as zero, which is no displacement, but a coordinate. -/
  zero : line.absolute = false → b.absolute = true → ∀ m : MirrorAxis, line.axes.get m.axis = none →
    m.along b.place.target.xy = 0
  /-- The word of an absolute line that lacks the other one is written as the coordinate of its first copy. -/
  written : line.absolute = true → line.x = none ∨ line.y = none → ∀ first ∈ copies.head?,
    first.absolute = false → ∀ m : MirrorAxis, (line.axes.get m.axis).isSome = true →
      m.along first.place.origin.xy = 0
  /-- The coordinate that such a line lacks is filled in from the first copy if all copies end in one place. -/
  filled : line.absolute = true → ∀ first ∈ copies.head?,
    (∀ c ∈ copies, c.place.target.xy.distance first.place.target.xy < samePlace) →
    ∀ m : MirrorAxis, line.axes.get m.axis = none →
      m.along first.place.target.xy = if b.absolute then m.along b.place.target.xy else 0

variable {b line : Block α} {copies : List (Block α)}

omit [IsStrictOrderedRing α] in
/-- A relative line is written with its displacements. -/
theorem rests_iff_of_relative (hrelative : line.absolute = false) :
    b.Rests line copies ↔ ∀ m : MirrorAxis, m.along (⟨line.x.getD 0, line.y.getD 0⟩ : Point α) =
      (line.axes.get m.axis).getD (if b.absolute then m.along b.place.target.xy else 0) := by
  have hword : ∀ m : MirrorAxis, m.along (⟨line.x.getD 0, line.y.getD 0⟩ : Point α) = (line.axes.get m.axis).getD 0 := by
    intro m
    cases m <;> rfl
  constructor
  · intro h m
    rw [hword]
    cases hlack : line.axes.get m.axis with
    | some v => rfl
    | none =>
        cases hb : b.absolute with
        | false => rfl
        | true => exact (h.zero hrelative hb m hlack).symm
  · intro h
    refine ⟨fun _ hb m hlack => ?_, by simp [hrelative], by simp [hrelative]⟩
    simpa [hword, hlack, hb] using (h m).symm

omit [IsStrictOrderedRing α] in
/-- An absolute line with both words is written as it is. -/
theorem rests_of_complete (habsolute : line.absolute = true) (hx : line.x.isSome = true) (hy : line.y.isSome = true) :
    b.Rests line copies := by
  have hword : ∀ m : MirrorAxis, line.axes.get m.axis ≠ none := by
    intro m
    rw [← Option.isSome_iff_ne_none]
    cases m
    · exact hx
    · exact hy
  refine ⟨by simp [habsolute], fun _ hlacks => ?_, fun _ _ _ _ m hlack => absurd hlack (hword m)⟩
  rcases hlacks with hlack | hlack
  · exact absurd hlack (hword .x)
  · exact absurd hlack (hword .y)

omit [IsStrictOrderedRing α] in
/-- An absolute line that lacks a word is written with the place where its first copy ends. -/
theorem rests_iff_of_lacking (habsolute : line.absolute = true) (hlacks : line.x = none ∨ line.y = none)
    {first : Block α} {rest : List (Block α)}
    (hfirst : ∀ m : MirrorAxis, ∀ v ∈ line.axes.get m.axis,
      m.along first.place.target.xy = if first.absolute then v else m.along first.place.origin.xy + v) :
    b.Rests line (first :: rest) ↔ ∀ m : MirrorAxis,
      (∀ c ∈ first :: rest, c.place.target.xy.distance first.place.target.xy < samePlace) ∨
        (line.axes.get m.axis).isSome = true →
      m.along first.place.target.xy =
        (line.axes.get m.axis).getD (if b.absolute then m.along b.place.target.xy else 0) := by
  constructor
  · intro h m hm
    cases hword : line.axes.get m.axis with
    | none =>
        rw [hword] at hm
        exact h.filled habsolute first rfl (hm.resolve_right (by simp)) m hword
    | some v =>
        rw [hfirst m v hword, Option.getD_some]
        split
        · rfl
        · rename_i hrelative
          rw [h.written habsolute hlacks first rfl (by simpa using hrelative) m (by simp [hword]), zero_add]
  · intro h
    refine ⟨by simp [habsolute], ?_, ?_⟩
    · intro _ _ _ heq hrelative m hsome
      obtain rfl : first = _ := by simpa using heq
      obtain ⟨v, hword⟩ := Option.isSome_iff_exists.mp hsome
      have hv := h m (.inr hsome)
      rw [hfirst m v hword, hrelative, if_neg (by simp), hword, Option.getD_some] at hv
      exact add_eq_right.mp hv
    · intro _ _ heq hsame m hlack
      obtain rfl : first = _ := by simpa using heq
      simpa [hlack] using h m (.inl hsame)

omit [IsStrictOrderedRing α] in
/-- The words of a line that a turn by nothing writes are those that a step of the line goes by if it rests. -/
theorem rests_iff (hcos : Scalar.cos (0 : α) = 1) (hsin : Scalar.sin (0 : α) = 0) (pivot : Point α)
    (hself : copies = [] → b = line)
    (hline : line.absolute = true → ∀ m : MirrorAxis, ∀ v ∈ line.axes.get m.axis, m.along line.place.target.xy = v)
    (hcopies : ∀ c ∈ copies, ∀ m : MirrorAxis, ∀ v ∈ line.axes.get m.axis,
      m.along c.place.target.xy = if c.absolute then v else m.along c.place.origin.xy + v) :
    (line.hasXY = true → b.Rests line copies) ↔
      ∀ m : MirrorAxis, ∀ v ∈ (line.turnedAxes ⟨0, 1, pivot⟩ (copies.map (·.place.target.xy))).get m.axis,
        v = (line.axes.get m.axis).getD (if b.absolute then m.along b.place.target.xy else 0) := by
  simp only [get_turnedAxes, turnedEnd_unturned hcos hsin]
  cases hwords : line.hasXY with
  | false => simp
  | true =>
      simp only [Bool.true_and, true_implies]
      cases habsolute : line.absolute with
      | false =>
          rw [rests_iff_of_relative habsolute]
          simp
      | true =>
          have hline := hline habsolute
          simp only [if_true, turnedFrom]
          cases hlacks : line.x.isNone || line.y.isNone with
          | false =>
              obtain ⟨hx, hy⟩ := Bool.or_eq_false_iff.mp hlacks
              rw [Option.isNone_eq_false_iff] at hx hy
              refine iff_of_true (rests_of_complete habsolute hx hy) ?_
              intro m v hv
              obtain rfl : m.along line.place.target.xy = v := by simpa using hv
              cases hword : line.axes.get m.axis with
              | some w => exact hline m w hword
              | none =>
                  cases m
                  · exact absurd hword (Option.isSome_iff_ne_none.mp hx)
                  · exact absurd hword (Option.isSome_iff_ne_none.mp hy)
          | true =>
              cases copies with
              | nil =>
                  obtain rfl := hself rfl
                  refine iff_of_true ⟨by simp [habsolute], by simp, by simp⟩ ?_
                  intro m v hv
                  obtain rfl : m.along b.place.target.xy = v := by simpa using hv
                  cases hword : b.axes.get m.axis with
                  | some w => exact hline m w hword
                  | none => rw [habsolute, if_pos rfl, Option.getD_none]
              | cons first rest =>
                  rw [rests_iff_of_lacking habsolute (by simpa using hlacks) (hcopies first (by simp))]
                  simp

end Block

namespace Program

variable {α : Type} [Field α] [LinearOrder α] [IsStrictOrderedRing α] [FloorRing α] [PlaneFunctions α]

variable {machine : Machine α} {p : Program α}

omit [IsStrictOrderedRing α] in
/-- A step has the words of its line. -/
theorem Settled.get_axes_of_line (h : p.Settled machine) {b line : Block α} (hb : b ∈ p.executed)
    (hline : p.lines[b.number]? = some line) (axis : Axis) : line.axes.get axis = b.axes.get axis := by
  have hrepeats := h.repeats b hb
  rw [hline] at hrepeats
  rw [hrepeats.axes]
  rfl

omit [IsStrictOrderedRing α] in
/-- A step goes where it has gone before exactly if the words of its rewritten line are those it goes by. -/
theorem Settled.targetFrom_revised_iff (h : p.Settled machine) (hcos : Scalar.cos (0 : α) = 1)
    (hsin : Scalar.sin (0 : α) = 0) (pivot : Point α) {b : Block α} (hb : b ∈ p.executed) :
    (p.revised (p.turnedLine ⟨0, 1, pivot⟩) b).targetFrom machine b.place.origin = b.place.target ↔
      ∀ line ∈ p.lines[b.number]?, line.hasXY = true → b.Rests line (p.copiesOf line.number) := by
  have hedit := editOf_revised (p := p) (p.turnedLine ⟨0, 1, pivot⟩) b
  have hrevised := h.repeats_revised (fun line _ => rewordOf_turnedLine (p := p) ⟨0, 1, pivot⟩ line) hb
  have htarget := h.target_eq hb
  cases hline : p.lines[b.number]? with
  | none =>
      rw [revised, hline, Option.elim_none]
      simp [htarget]
  | some line =>
      rw [hline] at hrevised
      have hnumber := h.numbered _ line hline
      have hlineMem : line ∈ p.executed := mem_executed_of_mem_lines (List.mem_of_getElem? hline)
      have hwords := h.get_axes_of_line hb hline
      have hturned : ∀ axis, (p.revised (p.turnedLine ⟨0, 1, pivot⟩) b).axes.get axis =
          (line.turnedAxes ⟨0, 1, pivot⟩ ((p.copiesOf line.number).map (·.place.target.xy))).get axis := by
        intro axis
        rw [hrevised.axes, ← Block.turned_axes]
        rfl
      have hkept : ∀ m : MirrorAxis, (b.axes.get m.axis).isSome = true →
          ((p.revised (p.turnedLine ⟨0, 1, pivot⟩) b).axes.get m.axis).isSome = true := by
        intro m hsome
        rw [hturned]
        rw [← hwords] at hsome
        exact Block.isSome_get_turnedAxes _ _ hsome
      have hiff := Block.targetFrom_eq_iff hedit.absolute (h.inWork b hb) (hedit.machineFrame.trans (h.inWork b hb))
        (by rw [hturned, Block.z_turnedAxes, hwords]) hkept machine b.place.origin
      rw [← htarget] at hiff
      rw [hiff]
      simp only [hturned, ← hwords, Option.mem_some_iff, forall_eq']
      refine (Block.rests_iff hcos hsin pivot ?_ ?_ ?_).symm
      · intro hnone
        rcases h.line_or_mem_copiesOf hb with hself | hcopy
        · exact Option.some.inj (hself.symm.trans hline)
        · rw [← hnumber, hnone] at hcopy
          simp at hcopy
      · intro habsolute m v hv
        exact h.along_target_eq hlineMem m habsolute hv
      · intro c hc m v hv
        refine h.along_target_of_word (mem_executed_of_mem_copiesOf hc) m ?_
        have hlineOf : p.lines[c.number]? = some line := by rw [h.number_of_mem_copiesOf hc, hnumber, hline]
        rwa [← h.get_axes_of_line (mem_executed_of_mem_copiesOf hc) hlineOf]

omit [IsStrictOrderedRing α] in
/-- A program is turned by nothing, about any point. The same lines run in the same order, and they go where
they have gone before exactly if every step rests. So they do if every step runs in the distance mode of its
line and, where the copies of an absolute line that lacks a coordinate all end in one place, ends there too. -/
theorem rests_apply (text : String) (settings : Settings α) (machine : Machine α) (pivot : Point α)
    (hcos : Scalar.cos (0 : α) = 1) (hsin : Scalar.sin (0 : α) = 0) :
    let p := read text settings machine
    let q := (Edit.apply (.turn ⟨0, 1, pivot⟩) p settings machine).1
    (∀ b ∈ p.lines, b.isEditable = true) →
      q.executed.map (·.number) = p.executed.map (·.number) ∧
      (q.executed.map (·.place.target) = p.executed.map (·.place.target) ↔
        ∀ b ∈ p.executed, ∀ line ∈ p.lines[b.number]?, line.hasXY = true → b.Rests line (p.copiesOf line.number)) ∧
      ((∀ b ∈ p.executed, ∀ line ∈ p.lines[b.number]?, line.hasXY = true → b.absolute = line.absolute ∧
        (line.absolute = true → line.x = none ∨ line.y = none → ∀ first ∈ (p.copiesOf line.number).head?,
          (∀ c ∈ p.copiesOf line.number, c.place.target.xy.distance first.place.target.xy < samePlace) →
          b.place.target.xy = first.place.target.xy)) →
        q.executed.map (·.place.target) = p.executed.map (·.place.target)) := by
  intro p q heditable
  have hsettled : p.Settled machine := settled_ofLines heditable
  have hreworded : Reworded (p.turnedLine ⟨0, 1, pivot⟩) machine p q :=
    hsettled.apply (by simp) (hsettled.turn_eq_mapLines _) fun line _ => rewordOf_turnedLine _ line
  have hiff : q.executed.map (·.place.target) = p.executed.map (·.place.target) ↔
      ∀ b ∈ p.executed, ∀ line ∈ p.lines[b.number]?, line.hasXY = true → b.Rests line (p.copiesOf line.number) := by
    rw [hreworded.executed, Tool.targets_pass_map_iff hsettled.placed rfl]
    exact forall₂_congr fun b hb => hsettled.targetFrom_revised_iff hcos hsin pivot hb
  refine ⟨?_, hiff, fun hsame => hiff.mpr fun b hb line hline hwords => ?_⟩
  · have hnumbers : List.Forall₂ (· = ·) (q.executed.map (·.number)) (p.executed.map (·.number)) := by
      rw [List.forall₂_map_left_iff, List.forall₂_map_right_iff]
      exact (hreworded.forall₂.imp fun b b' heq => (editOf_of_revised heq).number).flip
    rwa [List.forall₂_eq_eq_eq] at hnumbers
  · obtain ⟨habsolute, hplace⟩ := hsame b hb line hline hwords
    refine ⟨fun hrelative hb => ?_, fun hline' _ first hfirst hrelative => ?_, fun hline' first hfirst hall m hlack => ?_⟩
    · rw [habsolute, hrelative] at hb
      exact absurd hb Bool.false_ne_true
    · have hcopy : first ∈ p.copiesOf line.number := List.mem_of_mem_head? hfirst
      have hnumber : first.number = line.number := hsettled.number_of_mem_copiesOf hcopy
      have hfirstLine : line ∈ p.lines[first.number]? := by
        rw [hnumber, hsettled.numbered _ line hline]
        exact hline
      rw [(hsame first (mem_executed_of_mem_copiesOf hcopy) line hfirstLine hwords).1, hline'] at hrelative
      simp at hrelative
    · have hlacks : line.x = none ∨ line.y = none := by
        cases m
        · exact .inl hlack
        · exact .inr hlack
      rw [if_pos (habsolute.trans hline'), hplace hline' hlacks first hfirst hall]

/-- A body that is called from two places rests. One that is called once does not, if its line is read as
absolute and run as relative: the place that it reaches is written, and added to the place where it starts. -/
theorem rests_called_twice :
    let _ := PlaneFunctions.axial
    let machine : Machine ℚ := .default
    let p := read "G0 X0 Y10\nM98 P1\nG0 X0 Y20\nM98 P1\nG0 X0 Y0\nM30\nO1\nG1 X5 F100\nM99\n" .default machine
    let q := (Edit.apply (.turn ⟨0, 1, ⟨3, 4⟩⟩) p .default machine).1
    let p' := read "G91\nG1 X3 Y10 F100\nM98 P1\nG90\nM30\nO1\nG1 X5\nM99\n" .default machine
    let q' := (Edit.apply (.turn ⟨0, 1, ⟨3, 4⟩⟩) p' .default machine).1
    (Scalar.cos (0 : ℚ) = 1 ∧ Scalar.sin (0 : ℚ) = 0 ∧ (∀ b ∈ p.lines, b.isEditable = true) ∧
      ∀ b ∈ p'.lines, b.isEditable = true) ∧
    (p.copiesOf 7).map (·.place.target.xy) = [⟨5, 10⟩, ⟨5, 20⟩] ∧
    q.executed.map (·.place.target) = p.executed.map (·.place.target) ∧
    (p'.copiesOf 6).map (·.place.target.xy) = [⟨8, 10⟩] ∧ (q'.copiesOf 6).map (·.place.target.xy) = [⟨11, 20⟩] ∧
    ¬∀ b ∈ p'.executed, ∀ line ∈ p'.lines[b.number]?, line.hasXY = true → b.Rests line (p'.copiesOf line.number) := by
  intro _ machine p q p' q'
  have hcos : Scalar.cos (0 : ℚ) = 1 := by decide +kernel
  have hsin : Scalar.sin (0 : ℚ) = 0 := by decide +kernel
  have heditable : ∀ b ∈ p.lines, b.isEditable = true := by decide +kernel
  have heditable' : ∀ b ∈ p'.lines, b.isEditable = true := by decide +kernel
  obtain ⟨-, -, hrests⟩ := rests_apply _ .default machine ⟨3, 4⟩ hcos hsin heditable
  obtain ⟨-, hiff, -⟩ := rests_apply _ .default machine ⟨3, 4⟩ hcos hsin heditable'
  refine ⟨⟨hcos, hsin, heditable, heditable'⟩, by decide +kernel, hrests (by decide +kernel), by decide +kernel,
    by decide +kernel, fun hall => ?_⟩
  have hmoved : q'.executed.map (·.place.target) ≠ p'.executed.map (·.place.target) := by decide +kernel
  exact hmoved (hiff.mpr hall)

end Program

end PartProgram
