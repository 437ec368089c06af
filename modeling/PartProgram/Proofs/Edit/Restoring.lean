import PartProgram.Proofs.Edit.Mirroring
import PartProgram.Proofs.Program.Framing

/-! # A program mirrored twice

The second mirror stands in the middle of the extent that the first one has left. It takes the program back
if the middle has stayed where it was, and if every arc of a copy has been run in the sense of its line.
-/

namespace PartProgram

/-! ### Mirrored lines -/

namespace Block

section

variable {α : Type} [Scalar α] (m : MirrorAxis) (sum : α) (b : Block α)

theorem mirrored_axes : (b.mirrored m sum).axes =
    b.axes.set m.axis ((b.axes.get m.axis).map fun v => if b.absolute then sum - v else -v) := by
  rw [mirrored]
  split
  · rfl
  · rename_i hidle
    simp only [isMirrored, Bool.or_eq_true, not_or, Option.not_isSome_iff_eq_none] at hidle
    ext1 axis
    by_cases haxis : axis = m.axis
    · rw [haxis, AxisWords.get_set_self, hidle.1.1]
      rfl
    · rw [AxisWords.get_set_of_ne _ _ haxis]

theorem mirrored_offset (k : MirrorAxis) :
    (b.mirrored m sum).mirrorOffset k = if k = m then (b.mirrorOffset k).map (- ·) else b.mirrorOffset k := by
  rw [mirrored]
  split
  · cases k <;> cases m <;> rfl
  · rename_i hidle
    simp only [isMirrored, Bool.or_eq_true, not_or, Option.not_isSome_iff_eq_none] at hidle
    split
    · rename_i hk
      rw [hk, hidle.1.2]
      rfl
    · rfl

theorem mirrored_motion :
    (b.mirrored m sum).motion = if b.isMirrored m then b.motion.mirrored else b.motion := by
  rw [mirrored]
  split <;> rfl

theorem mirrored_modified : (b.mirrored m sum).modified = (b.isMirrored m || b.modified) := by
  rw [mirrored]
  split
  · rename_i h
    rw [h, Bool.true_or]
  · rename_i h
    rw [Bool.eq_false_iff.mpr h, Bool.false_or]

theorem mirrored_place (place : Placement α) :
    ({ b with place } : Block α).mirrored m sum = { b.mirrored m sum with place } := by
  change (if b.isMirrored m then _ else _) = _
  rw [mirrored]
  split <;> rfl

theorem isArc_mirrored : (b.mirrored m sum).motion.isArc = b.motion.isArc := by
  rw [mirrored_motion]
  split
  · cases b.motion <;> rfl
  · rfl

/-- A mirror changes the lines that it has changed before. -/
theorem isMirrored_mirrored : (b.mirrored m sum).isMirrored m = b.isMirrored m := by
  have hwords : ∀ axis, ((b.mirrored m sum).axes.get axis).isSome = (b.axes.get axis).isSome := by
    intro axis
    rw [mirrored_axes]
    by_cases haxis : axis = m.axis
    · rw [haxis, AxisWords.get_set_self, Option.isSome_map]
    · rw [AxisWords.get_set_of_ne _ _ haxis]
  have hoffsets : ∀ k, ((b.mirrored m sum).mirrorOffset k).isSome = (b.mirrorOffset k).isSome := by
    intro k
    rw [mirrored_offset]
    split
    · exact Option.isSome_map
    · rfl
  have hi := hoffsets .x
  have hj := hoffsets .y
  change (b.mirrored m sum).i.isSome = b.i.isSome at hi
  change (b.mirrored m sum).j.isSome = b.j.isSome at hj
  simp only [isMirrored, hasCoordinates, AxisWords.any, hwords, hoffsets, hi, hj, isArc_mirrored]

theorem rewordOf_mirrored : RewordOf b (b.mirrored m sum) := by
  refine ⟨b.editOf_mirrored m sum, ?_, ?_⟩
  · rw [mirrored]
    split <;> rfl
  · rw [isArc_mirrored, mirrored_motion]
    split
    · cases hmotion : b.motion with
      | arc w => exact .inr ⟨rfl, rfl⟩
      | _ => exact .inl rfl
    · exact .inl rfl

theorem repeats_none_mirrored {b : Block α} (h : b.Repeats none) : (b.mirrored m sum).Repeats none := by
  have hidle : b.isMirrored m = false := by
    cases m <;>
      simp [isMirrored, mirrorOffset, hasCoordinates, h.axes, h.i, h.j, AxisWords.any, AxisWords.none, Axis.all]
  rwa [mirrored, if_neg (by simp [hidle])]

end

variable {α : Type} [Field α] [LinearOrder α] [FloorRing α] [PlaneFunctions α] (m : MirrorAxis) (s s' : α)
  (b : Block α)

/-- Two mirrors shift the absolute words for their coordinate, unless they stand in one place. -/
theorem mirrored_mirrored_axes : ((b.mirrored m s).mirrored m s').axes =
    b.axes.set m.axis ((b.axes.get m.axis).map fun v => if b.absolute then v + (s' - s) else v) := by
  rw [mirrored_axes, mirrored_axes, (b.editOf_mirrored m s).absolute, AxisWords.get_set_self, Option.map_map]
  ext1 axis
  by_cases haxis : axis = m.axis
  · subst haxis
    rw [AxisWords.get_set_self, AxisWords.get_set_self]
    congr 1
    funext v
    simp only [Function.comp_apply]
    split
    · ring
    · exact neg_neg v
  · rw [AxisWords.get_set_of_ne _ _ haxis, AxisWords.get_set_of_ne _ _ haxis, AxisWords.get_set_of_ne _ _ haxis]

theorem mirrored_mirrored_axes_eq (h : b.anchors m = false ∨ s' = s) :
    ((b.mirrored m s).mirrored m s').axes = b.axes := by
  rw [mirrored_mirrored_axes]
  ext1 axis
  by_cases haxis : axis = m.axis
  · subst haxis
    rw [AxisWords.get_set_self]
    cases hword : b.axes.get m.axis with
    | none => rfl
    | some v =>
        rcases h with hanchors | rfl
        · have hrelative : b.absolute = false := by simpa [anchors, hword] using hanchors
          simp [hrelative]
        · simp
  · rw [AxisWords.get_set_of_ne _ _ haxis]

theorem mirrored_mirrored_offset (k : MirrorAxis) :
    ((b.mirrored m s).mirrored m s').mirrorOffset k = b.mirrorOffset k := by
  rw [mirrored_offset, mirrored_offset]
  split
  · simp [Option.map_map]
  · rfl

theorem mirrored_mirrored_motion : ((b.mirrored m s).mirrored m s').motion = b.motion := by
  rw [mirrored_motion, isMirrored_mirrored, mirrored_motion]
  split
  · exact Motion.mirrored_mirrored _
  · rfl

end Block

variable {α : Type} [Field α] [LinearOrder α] [IsStrictOrderedRing α] [FloorRing α] [PlaneFunctions α]

/-! ### Words after two mirrors -/

/-- The map that moves nothing. -/
def PlaneMap.same : PlaneMap α := ⟨fun _ => 1, fun _ => 0⟩

omit [IsStrictOrderedRing α] in
theorem PlaneMap.coordinate_same (m : MirrorAxis) (v : α) : (same : PlaneMap α).coordinate m v = v := by
  change 1 * v + 0 = v
  rw [one_mul, add_zero]

omit [IsStrictOrderedRing α] in
theorem PlaneMap.position_after_same (start : Point α) (before : List (Block α)) (p : Position α) :
    ((same : PlaneMap α).after start before).position p = p := by
  have hafter : (same : PlaneMap α).after start before = same :=
    same.after_eq start fun m => .inr (by simp [same])
  rw [hafter, position, coordinate_same, coordinate_same]

namespace Program.Reworded

variable {p q r : Program α} {machine : Machine α} {m : MirrorAxis} {s s' : α} {b b₁ : Block α}

section

variable (h₁ : Reworded (Block.mirrored m s) machine p q)
  (hb₁ : b₁ = { p.revised (Block.mirrored m s) b with place := b₁.place })

include h₁ hb₁

omit [IsStrictOrderedRing α] in
/-- A step has the words of its line also after two mirrors. -/
theorem repeats_mirrored_twice (hmem : b₁ ∈ q.executed) :
    (q.revised (Block.mirrored m s') b₁).Repeats
      (p.lines[b.number]?.map fun line => (line.mirrored m s).mirrored m s') := by
  have hnumber : b₁.number = b.number := (editOf_of_revised hb₁).number
  have hrepeats := h₁.settled.repeats_revised (fun line _ => line.rewordOf_mirrored m s') hmem
  rw [hnumber] at hrepeats
  cases hline : p.lines[b.number]? with
  | none =>
      rw [h₁.getElem?_lines_eq_none hline] at hrepeats
      exact hrepeats
  | some line =>
      obtain ⟨line', hline', heq⟩ := exists_getElem?_of_forall₂ h₁.lines hline
      rw [hline', heq, Option.map_some, Block.mirrored_place] at hrepeats
      exact ⟨hrepeats.axes, hrepeats.i, hrepeats.j⟩

omit [IsStrictOrderedRing α] in
/-- Two mirrors in one place leave the words as they were. So do any two where no line has an absolute word
for the coordinate. -/
theorem mappedBy_mirrored_twice (hp : p.Settled machine) (hb : b ∈ p.executed) (hmem : b₁ ∈ q.executed)
    (hplace : (∀ line ∈ p.lines, line.anchors m = false) ∨ s' = s) :
    b.MappedBy .same (q.revised (Block.mirrored m s') b₁) := by
  have hedit : Block.EditOf b (q.revised (Block.mirrored m s') b₁) :=
    (editOf_of_revised hb₁).trans (editOf_revised _ b₁)
  have hwords : (q.revised (Block.mirrored m s') b₁).axes = b.axes ∧
      ∀ k, (q.revised (Block.mirrored m s') b₁).mirrorOffset k = b.mirrorOffset k := by
    have hrepeats := hp.repeats b hb
    have htwice : (q.revised (Block.mirrored m s') b₁).Repeats _ := repeats_mirrored_twice h₁ hb₁ hmem
    cases hline : p.lines[b.number]? with
    | none =>
        rw [hline] at hrepeats htwice
        refine ⟨htwice.axes.trans hrepeats.axes.symm, fun k => ?_⟩
        cases k with
        | x => exact htwice.i.trans hrepeats.i.symm
        | y => exact htwice.j.trans hrepeats.j.symm
    | some line =>
        rw [hline] at hrepeats htwice
        refine ⟨?_, fun k => ?_⟩
        · rw [htwice.axes, hrepeats.axes]
          exact line.mirrored_mirrored_axes_eq m s s' (hplace.imp_left fun h => h line (List.mem_of_getElem? hline))
        · rw [htwice.mirrorOffset, hrepeats.mirrorOffset, Block.mirrored_mirrored_offset]
  refine ⟨hedit.absolute, ⟨hp.inWork b hb, hedit.machineFrame.trans (hp.inWork b hb)⟩, ?_, ?_, ?_, ?_⟩
  · intro k
    rw [hwords.1]
    simp only [PlaneMap.coordinate_same]
    cases b.axes.get k.axis <;> simp [PlaneMap.same]
  · rw [hwords.1]
  · intro k
    rw [hwords.2]
    cases b.mirrorOffset k <;> simp [PlaneMap.same]
  · rw [isArc_revised, hb₁]
    exact isArc_revised (Block.mirrored m s) b

omit [IsStrictOrderedRing α] in
/-- Two mirrors leave the motion of the steps that run as their lines, and turn the others into it. -/
theorem motion_mirrored_twice_iff (hmodified : ∀ line ∈ p.lines, line.modified = false) :
    (q.revised (Block.mirrored m s') b₁).motion = b.motion ↔ p.KeepsSense (·.isMirrored m) b := by
  have hnumber : b₁.number = b.number := (editOf_of_revised hb₁).number
  have harc : b₁.motion.isArc = b.motion.isArc := by
    rw [hb₁]
    exact isArc_revised (Block.mirrored m s) b
  have hmotion : b₁.motion = (p.revised (Block.mirrored m s) b).motion := by rw [hb₁]
  rw [revised] at hmotion
  rw [revised, hnumber, KeepsSense]
  cases hline : p.lines[b.number]? with
  | none =>
      rw [hline] at hmotion
      rw [h₁.getElem?_lines_eq_none hline]
      simpa using hmotion
  | some line =>
      have hm := hmodified line (List.mem_of_getElem? hline)
      obtain ⟨line', hline', heq⟩ := exists_getElem?_of_forall₂ h₁.lines hline
      rw [hline, Option.elim_some, Block.motion_following] at hmotion
      rw [hline', heq, Option.elim_some, Block.mirrored_place, Block.motion_following]
      simp only [Block.mirrored_modified, Block.isMirrored_mirrored, hm, Bool.or_false, Bool.or_self,
        Block.isArc_mirrored, Block.mirrored_mirrored_motion, harc] at hmotion ⊢
      by_cases hturned : (line.isMirrored m && (line.motion.isArc && b.motion.isArc)) = true
      · rw [if_pos hturned]
        simp only [Bool.and_eq_true] at hturned
        simp [hturned]
      · rw [if_neg hturned] at hmotion
        rw [if_neg hturned, hmotion]
        simp only [Bool.and_eq_true, not_and] at hturned
        simp only [Option.mem_some_iff, forall_eq', true_iff]
        intro hmirrored hline_arc hb_arc
        exact absurd hb_arc (hturned hmirrored hline_arc)

omit [IsStrictOrderedRing α] in
/-- A line with an absolute word tells two mirrors apart. -/
theorem eq_of_restored (hp : p.Settled machine) (hline : b ∈ p.lines) (hanchors : b.anchors m = true)
    (hmem : b₁ ∈ q.executed) (hr : r.Settled machine) {b₂ : Block α} (hb₂ : b₂ ∈ r.executed)
    (heq₂ : b₂ = { q.revised (Block.mirrored m s') b₁ with place := b₂.place })
    (htarget : b₂.place.target = b.place.target) : s' = s := by
  obtain ⟨n, hn⟩ := List.mem_iff_getElem?.mp hline
  simp only [Block.anchors, Bool.and_eq_true, Option.isSome_iff_exists] at hanchors
  obtain ⟨habsolute, v, hword⟩ := hanchors
  have hrepeats : (q.revised (Block.mirrored m s') b₁).Repeats _ := repeats_mirrored_twice h₁ hb₁ hmem
  have haxes : b₂.axes = ((b.mirrored m s).mirrored m s').axes := by
    rw [heq₂, hrepeats.axes, hp.numbered n b hn, hn]
    rfl
  have hword₂ : b₂.axes.get m.axis = some (v + (s' - s)) := by
    rw [haxes, Block.mirrored_mirrored_axes, AxisWords.get_set_self, hword, Option.map_some, if_pos habsolute]
  have hedit : Block.EditOf b b₂ := (editOf_of_revised hb₁).trans (editOf_of_revised heq₂)
  have hbefore := hp.along_target_eq (mem_executed_of_mem_lines hline) m habsolute hword
  have hafter := hr.along_target_eq hb₂ m (hedit.absolute.trans habsolute) hword₂
  rw [htarget, hbefore] at hafter
  exact sub_eq_zero.mp (left_eq_add.mp hafter)

end

omit [IsStrictOrderedRing α] in
/-- Two mirrors put every step back to where it was, in its motion, if and only if they stand in one place, or no
line has an absolute word for the coordinate, and no arc is run against the sense of its line. -/
theorem restored_iff (hp : p.Settled machine) (h₁ : Reworded (Block.mirrored m s) machine p q)
    (h₂ : Reworded (Block.mirrored m s') machine q r) (hmodified : ∀ line ∈ p.lines, line.modified = false) :
    List.Forall₂ (fun b b' => b'.place.target = b.place.target ∧ b'.motion = b.motion) p.executed r.executed ↔
      ((∀ line ∈ p.lines, line.anchors m = false) ∨ s' = s) ∧
        ∀ b ∈ p.executed, p.KeepsSense (·.isMirrored m) b := by
  constructor
  · intro hrestored
    have hsteps : ∀ b ∈ p.executed, ∃ b₁ b₂, b₁ ∈ q.executed ∧
        b₁ = { p.revised (Block.mirrored m s) b with place := b₁.place } ∧ b₂ ∈ r.executed ∧
        b₂ = { q.revised (Block.mirrored m s') b₁ with place := b₂.place } ∧
        b₂.place.target = b.place.target ∧ b₂.motion = b.motion := by
      intro b hb
      obtain ⟨n, hn⟩ := List.mem_iff_getElem?.mp hb
      obtain ⟨b₁, hb₁, heq₁⟩ := exists_getElem?_of_forall₂ h₁.forall₂ hn
      obtain ⟨b₂, hb₂, heq₂⟩ := exists_getElem?_of_forall₂ h₂.forall₂ hb₁
      obtain ⟨b₂', hb₂', hsame⟩ := exists_getElem?_of_forall₂ hrestored hn
      obtain rfl : b₂ = b₂' := by simpa [hb₂] using hb₂'
      exact ⟨b₁, b₂, List.mem_of_getElem? hb₁, heq₁, List.mem_of_getElem? hb₂, heq₂, hsame⟩
    refine ⟨?_, ?_⟩
    · by_contra hmoved
      simp only [not_or, not_forall, Bool.not_eq_false] at hmoved
      obtain ⟨⟨line, hline, hanchors⟩, hne⟩ := hmoved
      obtain ⟨b₁, b₂, hb₁, heq₁, hb₂, heq₂, htarget, -⟩ := hsteps line (mem_executed_of_mem_lines hline)
      exact hne (eq_of_restored h₁ heq₁ hp hline hanchors hb₁ h₂.settled hb₂ heq₂ htarget)
    · intro b hb
      obtain ⟨b₁, b₂, -, heq₁, -, heq₂, -, hmotion⟩ := hsteps b hb
      have hkept : (q.revised (Block.mirrored m s') b₁).motion = b.motion := by rw [← hmotion, heq₂]
      exact (motion_mirrored_twice_iff h₁ heq₁ hmodified).mp hkept
  · rintro ⟨hplace, hsense⟩
    have hwords : List.Forall₂ (Block.MappedBy .same) p.executed
        (q.executed.map (q.revised (Block.mirrored m s'))) := by
      rw [List.forall₂_map_right_iff]
      refine forall₂_of_getElem? h₁.forall₂.length_eq fun n b b₁ hb hb₁ => ?_
      exact mappedBy_mirrored_twice h₁ (h₁.forall₂_getElem? hb hb₁) hp (List.mem_of_getElem? hb)
        (List.mem_of_getElem? hb₁) hplace
    refine forall₂_of_getElem? (h₁.forall₂.length_eq.trans h₂.forall₂.length_eq) fun n b b₂ hb hb₂ => ?_
    obtain ⟨b₁, hb₁, heq₁⟩ := exists_getElem?_of_forall₂ h₁.forall₂ hb
    have heq₂ := h₂.forall₂_getElem? hb₁ hb₂
    refine ⟨?_, ?_⟩
    · rw [h₂.executed] at hb₂
      obtain ⟨-, htarget, -⟩ := Tool.pass_mappedBy hp.placed hwords hb hb₂
      rw [htarget, PlaneMap.position_after_same]
    · rw [heq₂]
      exact (motion_mirrored_twice_iff h₁ heq₁ hmodified).mpr (hsense b (List.mem_of_getElem? hb))

end Program.Reworded

/-! ### The extent in the mirror -/

/-- The mirror stands in the middle of the extent, and leaves the middle where it is. -/
theorem MirrorAxis.sum_extent_mirror (m : MirrorAxis) (e : Extent α) :
    m.sum ((PlaneMap.mirror m (m.sum e)).extent e) = m.sum e := by
  have hrange : ∀ lo hi : α, lo + hi - hi + (lo + hi - lo) = lo + hi := by
    intro lo hi
    ring
  obtain ⟨x, y, z⟩ := e
  cases x with
  | none => cases m <;> rfl
  | some x =>
      cases y with
      | none => cases m <;> rfl
      | some y =>
          simp only [PlaneMap.extent, Option.map_some]
          cases m with
          | x =>
              rw [PlaneMap.range_mirror]
              exact hrange x.lo x.hi
          | y =>
              rw [PlaneMap.range_mirror .y]
              exact hrange y.lo y.hi

namespace Block

variable (m : MirrorAxis) (s : α) (b : Block α)

omit [IsStrictOrderedRing α] in
theorem word_mirrored (k : MirrorAxis) : (b.mirrored m s).axes.get k.axis = (b.axes.get k.axis).map fun v =>
    if b.absolute then (PlaneMap.mirror m s).coordinate k v else (PlaneMap.mirror m s).factor k * v := by
  rw [mirrored_axes]
  by_cases hk : k = m
  · subst hk
    rw [AxisWords.get_set_self]
    simp only [PlaneMap.coordinate_mirror]
    simp [PlaneMap.mirror, MirrorAxis.sign]
  · have haxis : k.axis ≠ m.axis := by
      cases k <;> cases m <;> simp_all [MirrorAxis.axis]
    rw [AxisWords.get_set_of_ne _ _ haxis]
    simp only [PlaneMap.coordinate_mirror_of_ne _ _ hk]
    simp [PlaneMap.mirror, MirrorAxis.sign, hk]

omit [IsStrictOrderedRing α] in
theorem offset_mirrored (k : MirrorAxis) :
    (b.mirrored m s).mirrorOffset k = (b.mirrorOffset k).map (m.sign k * ·) := by
  rw [mirrored_offset]
  by_cases hk : k = m <;> simp [MirrorAxis.sign, hk]

end Block

namespace Program

variable {p q : Program α} {machine : Machine α}

omit [IsStrictOrderedRing α] in
/-- In a program that runs as it has been read, every step has the modes of its line. -/
theorem Settled.runs_as_read (h : p.Settled machine) (hcopies : p.RunsAsRead) {b line : Block α} (hb : b ∈ p.executed)
    (hline : p.lines[b.number]? = some line) : b.absolute = line.absolute ∧ b.motion = line.motion := by
  rcases h.line_or_copy hb with hself | ⟨e, he, c, hc, rfl, hnumber⟩
  · obtain rfl : line = b := Option.some_inj.mp (hline.symm.trans hself)
    exact ⟨rfl, rfl⟩
  · rw [hnumber] at hline
    exact hcopies e he c hc line hline

omit [IsStrictOrderedRing α] in
/-- Every step of a mirrored program has mirrored words. -/
theorem Settled.mappedBy_mirrored (h : p.Settled machine) (hcopies : p.RunsAsRead) (m : MirrorAxis) (s : α)
    {b : Block α} (hb : b ∈ p.executed) : b.MappedBy (.mirror m s) (p.revised (Block.mirrored m s) b) := by
  have habsolute : ∀ line, p.HasWordsOf b line → line.absolute = b.absolute := by
    rintro line (hline | ⟨-, rfl⟩)
    · exact (h.runs_as_read hcopies hb hline).1.symm
    · rfl
  refine h.mappedBy (fun line _ => line.rewordOf_mirrored m s) (fun _ => Block.repeats_none_mirrored m s) hb ?_ ?_ ?_
  · intro line hsource k
    rw [← habsolute line hsource]
    exact line.word_mirrored m s k
  · intro line _
    rw [Block.mirrored_axes, AxisWords.get_set_of_ne]
    cases m <;> decide
  · exact fun line _ k => line.offset_mirrored m s k

omit [IsStrictOrderedRing α] in
/-- Arcs turn around in the mirror. -/
theorem Settled.motion_mirrored (h : p.Settled machine) (hcopies : p.RunsAsRead) (m : MirrorAxis) (s : α) {b : Block α}
    (hb : b ∈ p.executed) (harc : b.motion.isArc = true) (hoffset : (b.i.isSome || b.j.isSome) = true) :
    (p.revised (Block.mirrored m s) b).motion = b.motion.mirrored := by
  have hrepeats := h.repeats b hb
  rw [revised]
  cases hline : p.lines[b.number]? with
  | none =>
      rw [hline] at hrepeats
      simp [hrepeats.i, hrepeats.j] at hoffset
  | some line =>
      rw [hline] at hrepeats
      have hmotion := (h.runs_as_read hcopies hb hline).2
      have hi : b.i = line.i := hrepeats.i
      have hj : b.j = line.j := hrepeats.j
      have hmirrored : line.isMirrored m = true := by
        rw [hi, hj] at hoffset
        rw [hmotion] at harc
        simp [Block.isMirrored, Block.hasCoordinates, harc, Bool.or_assoc, hoffset]
      rw [Option.elim_some, Block.motion_following, Block.mirrored_modified, Block.isArc_mirrored,
        Block.mirrored_motion, hmirrored, ← hmotion, harc]
      rfl

/-- An arc of a mirrored program is the mirrored arc, if neither of its ends is its centre. -/
theorem Settled.arc_mirrored (h : p.Settled machine) (hcopies : p.RunsAsRead) (hsymmetric : PlaneFunctions.Symmetric α)
    (m : MirrorAxis) (s : α) {b b' : Block α} (hb : b ∈ p.executed)
    (hb' : b' = { p.revised (Block.mirrored m s) b with place := b'.place }) {u v : Point α}
    (hends : ∀ a ∈ b.arcBetween u v, u ≠ a.center ∧ v ≠ a.center) :
    Option.Rel (Arc.Reflects m s) (b.arcBetween u v)
      (b'.arcBetween ((PlaneMap.mirror m s).point u) ((PlaneMap.mirror m s).point v)) := by
  have hwords := h.mappedBy_mirrored hcopies m s hb
  have hi : b'.i = b.i.map (m.sign .x * ·) := by
    rw [hb']
    exact hwords.offset .x
  have hj : b'.j = b.j.map (m.sign .y * ·) := by
    rw [hb']
    exact hwords.offset .y
  have hisArc : b'.motion.isArc = b.motion.isArc := by
    rw [hb']
    exact hwords.isArc
  have hzero : ∀ (k : MirrorAxis) (o : Option α), (o.map (m.sign k * ·)).getD 0 = m.sign k * o.getD 0 := by
    intro k o
    cases o <;> simp
  have hoffsets : (b'.i.isSome || b'.j.isSome) = (b.i.isSome || b.j.isSome) := by
    rw [hi, hj, Option.isSome_map, Option.isSome_map]
  refine Block.rel_arcBetween hisArc hoffsets fun w w' hw hw' hoffset => ?_
  have hwinding : b.motion.winding? = some w := by rw [hw]; rfl
  obtain ⟨hu, hv⟩ := hends _ (Block.arcBetween_eq hwinding hoffset u v)
  have hflip : w' = w.flip := by
    have hmotion : b'.motion = b.motion.mirrored := by
      rw [hb']
      exact h.motion_mirrored hcopies m s hb (by rw [hw]; rfl) hoffset
    rw [hw, hw'] at hmotion
    exact Motion.arc.inj hmotion
  rw [hi, hj, hzero, hzero, hflip]
  exact Arc.reflects_ofOffsets hsymmetric m s hu hv w

/-- If every cut comes after an absolute word for the coordinate, the extent is mirrored. -/
theorem Reworded.extent_mirrored {m : MirrorAxis} {s : α} (h : Reworded (Block.mirrored m s) machine p q)
    (hp : p.Settled machine) (hcopies : p.RunsAsRead) (hsymmetric : PlaneFunctions.Symmetric α)
    (hcut : ∀ n b, p.executed[n]? = some b → b.isDrawable = true → b.motion.isEngaged = true → b.hasXY = true →
      ((p.executed.take n).any (Block.anchors m) = true ∨
        m.along machine.workPosition.xy + m.along machine.workPosition.xy = s) ∧
      ∀ a ∈ b.place.arc, b.place.origin.xy ≠ a.center ∧ b.place.target.xy ≠ a.center) :
    q.extent = (PlaneMap.mirror m s).extent p.extent := by
  refine h.extent_eq hp (fun b => hp.mappedBy_mirrored hcopies m s) fun n b b' hb hb' hdrawable hengaged hxy => ?_
  obtain ⟨hanchored, hends⟩ := hcut n b hb hdrawable hengaged hxy
  have hmem := List.mem_of_getElem? hb
  have hafter : (PlaneMap.mirror m s).after machine.workPosition.xy (p.executed.take n) = .mirror m s := by
    refine PlaneMap.after_eq _ _ fun k => ?_
    by_cases hk : k = m
    · subst hk
      refine hanchored.imp_right fun hstart => ?_
      simp [PlaneMap.mirror, MirrorAxis.sign, hstart]
    · simp [PlaneMap.mirror, MirrorAxis.sign, hk]
  obtain ⟨horigin, htarget, -⟩ := h.mapped hp (fun b => hp.mappedBy_mirrored hcopies m s) hb hb'
  rw [hafter] at horigin
  rw [List.take_succ_of_getElem? hb, PlaneMap.after_append_eq _ hafter] at htarget
  refine ⟨hafter, ?_⟩
  rw [hp.arc_eq hmem] at hends
  have harc := hp.arc_mirrored hcopies hsymmetric m s hmem (h.forall₂_getElem? hb hb') hends
  rw [hp.arc_eq hmem, h.settled.arc_eq (List.mem_of_getElem? hb'), horigin, htarget, PlaneMap.position_xy,
    PlaneMap.position_xy]
  exact Option.rel_imp (fun a a' ha => ha.boxPoints hsymmetric) harc

/-- A program that is mirrored twice along one coordinate takes the tool to where it went before, in the same
motions, if and only if the first mirror leaves the middle of the extent in its place, or no line has an absolute
word for the coordinate, and every copy runs its arc in the sense of its line.

The middle stays where every cut comes after an absolute word for the coordinate, or starts from the middle, and
copies run as their lines have been read. Then the first mirror reflects the extent. An arc must not start or end
in its centre, because no direction leads from there. -/
theorem restores_apply (text : String) (settings : Settings α) (machine : Machine α) (m : MirrorAxis) :
    let p := read text settings machine
    let q := (Edit.apply (.mirror m) p settings machine).1
    let r := (Edit.apply (.mirror m) q settings machine).1
    let start := m.along machine.workPosition.xy
    let restored :=
      List.Forall₂ (fun b b' => b'.place.target = b.place.target ∧ b'.motion = b.motion) p.executed r.executed
    (∀ b ∈ p.lines, b.isEditable = true) →
      (restored ↔ ((∀ b ∈ p.lines, b.anchors m = false) ∨ m.sum q.extent = m.sum p.extent) ∧
        ∀ b ∈ p.executed, p.KeepsSense (·.isMirrored m) b) ∧
      (PlaneFunctions.Symmetric α → p.RunsAsRead →
        (∀ n b, p.executed[n]? = some b → b.isDrawable = true → b.motion.isEngaged = true → b.hasXY = true →
          ((p.executed.take n).any (Block.anchors m) = true ∨ start + start = m.sum p.extent) ∧
          ∀ a ∈ b.place.arc, b.place.origin.xy ≠ a.center ∧ b.place.target.xy ≠ a.center) →
        q.extent = (PlaneMap.mirror m (m.sum p.extent)).extent p.extent ∧ restored) := by
  intro p q r start restored heditable
  have hmirror : ∀ {p : Program α}, p.Settled machine →
      Reworded (Block.mirrored m (m.sum p.extent)) machine p (Edit.apply (.mirror m) p settings machine).1 := by
    intro p hp
    refine hp.apply (by simp) ?_ fun line _ => line.rewordOf_mirrored m _
    exact editLines_eq_mapLines hp.editable _
  have hp : p.Settled machine := settled_ofLines heditable
  have hq : Reworded (Block.mirrored m (m.sum p.extent)) machine p q := hmirror hp
  have hr : Reworded (Block.mirrored m (m.sum q.extent)) machine q r := hmirror hq.settled
  have hmodified : ∀ b ∈ p.lines, b.modified = false :=
    modified_place (modified_asRead (Text.lines text) settings) machine
  have hiff := Reworded.restored_iff hp hq hr hmodified
  refine ⟨hiff, fun hsymmetric hcopies hcut => ?_⟩
  have hextent := hq.extent_mirrored hp hcopies hsymmetric hcut
  refine ⟨hextent, hiff.mpr ⟨.inr ?_, ?_⟩⟩
  · rw [hextent]
    exact m.sum_extent_mirror p.extent
  · intro b hb line hline _ _ _
    exact (hp.runs_as_read hcopies hb hline).2.symm

/-- An arc in a body, and a cut by a displacement. -/
theorem restores_copied_arc :
    let _ := PlaneFunctions.axial
    let machine : Machine ℚ := .default
    let p := read "G0 X2 Y1\nM98 P1\nG91 G1 Y6\nM30\nO1\nG90 G3 X10 I4 F100\nM99\n" .default machine
    let q := (Edit.apply (.mirror .y) p .default machine).1
    let r := (Edit.apply (.mirror .y) q .default machine).1
    ((∀ b ∈ p.lines, b.isEditable = true) ∧ PlaneFunctions.Symmetric ℚ ∧ p.RunsAsRead) ∧
    MirrorAxis.y.sum p.extent = 4 ∧ q.executed[3]?.map (·.place.target.xy) = some ⟨10, -3⟩ ∧
    q.extent = (PlaneMap.mirror .y 4).extent p.extent ∧
    List.Forall₂ (fun b b' => b'.place.target = b.place.target ∧ b'.motion = b.motion) p.executed r.executed := by
  intro _ machine p q r
  have heditable : ∀ b ∈ p.lines, b.isEditable = true := by decide +kernel
  have hsymmetric : PlaneFunctions.Symmetric ℚ := PlaneFunctions.symmetric_axial
  have hcopies : p.RunsAsRead := by
    unfold RunsAsRead
    decide +kernel
  have hsum : MirrorAxis.y.sum p.extent = 4 := by decide +kernel
  have hcuts : ∀ n < p.executed.length, ∀ b ∈ p.executed[n]?, (b.motion.isEngaged && b.hasXY) = true →
      (p.executed.take n).any (Block.anchors .y) = true ∧
        ∀ a ∈ b.place.arc, b.place.origin.xy ≠ a.center ∧ b.place.target.xy ≠ a.center := by decide +kernel
  obtain ⟨-, hrestores⟩ := restores_apply _ .default machine .y heditable
  have hrestored := hrestores hsymmetric hcopies fun n b hb _ hengaged hxy =>
    have hn : n < p.executed.length := (List.getElem?_eq_some_iff.mp hb).1
    (hcuts n hn b hb (by rw [hengaged, hxy]; rfl)).imp_left .inl
  rw [← hsum]
  exact ⟨⟨heditable, hsymmetric, hcopies⟩, rfl, by decide +kernel, hrestored⟩

-- The extent of a cut from where the tool stands starts there, and the mirror does not take it along.
example :
    let _ := PlaneFunctions.axial
    let machine : Machine ℚ := .default
    let p := read "G1 X10 Y0\n" .default machine
    let q := (Edit.apply (.mirror .x) p .default machine).1
    let r := (Edit.apply (.mirror .x) q .default machine).1
    MirrorAxis.x.sum p.extent = 10 ∧ MirrorAxis.x.sum q.extent = 0 ∧
      p.executed.map (·.place.target.xy) = [⟨10, 0⟩] ∧ r.executed.map (·.place.target.xy) = [⟨0, 0⟩] := by
  decide +kernel

end Program

end PartProgram
