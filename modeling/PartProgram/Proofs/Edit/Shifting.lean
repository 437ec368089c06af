import PartProgram.Proofs.Program.Framing
import PartProgram.Proofs.Edit.PassThrough

/-! # The path shifted to an anchor

A program in absolute distances is shifted word by word. From its first positioning move on the path is the
old one, shifted, and so is the extent, as long as no edit turns an arc around.
-/

namespace PartProgram

section

variable {α : Type} [Scalar α]

/-! ### Absolute programs -/

namespace Program

/-- Where no line selects relative distances, everything runs in absolute ones. -/
theorem absolute_executed {lines : List String} {settings : Settings α} {machine : Machine α}
    (h : ∀ line ∈ lines, ¬selectsRelative α line) :
    ∀ b ∈ (ofLines lines settings machine).executed, b.absolute = true := by
  intro b hb
  by_contra hrelative
  obtain ⟨line, hline, hselects⟩ := exists_selectsRelative (containsRelative_of_mem_executed hb (by simpa using hrelative))
  exact h line hline hselects

end Program

/-! ### Lines shifted one by one -/

namespace Block

/-- The line with its absolute coordinates shifted by `-delta`. -/
def moved (delta : Point α) (b : Block α) : Block α := (b.shifted delta ⟨false, false⟩).2

variable (delta : Point α) (b : Block α)

theorem rewordOf_moved : RewordOf b (b.moved delta) := by
  refine ⟨b.editOf_shifted delta _, ?_, .inl ?_⟩ <;> simp only [moved, shifted] <;> split <;> split <;> rfl

theorem moved_motion : (b.moved delta).motion = b.motion := by
  simp only [moved, shifted]
  split <;> split <;> rfl

variable {b} (h : b.absolute = true)

include h

theorem shifted_of_absolute (pending : Pending) : (b.shifted delta pending).2 = b.moved delta := by
  simp only [moved, shifted, h, if_true]
  split <;> rfl

theorem moved_modified (hm : b.modified = false) : (b.moved delta).modified = b.hasXY := by
  simp only [moved, shifted, h, if_true]
  cases hwords : b.hasXY <;> simp [hm]

theorem word_moved (m : MirrorAxis) :
    (b.moved delta).axes.get m.axis = (b.axes.get m.axis).map (· - m.along delta) := by
  simp only [moved, shifted, h, if_true]
  split
  · cases m with
    | x => exact b.axes.get_set_plane _ _ .x
    | y => exact b.axes.get_set_plane _ _ .y
  · rename_i hxy
    obtain ⟨hx, hy⟩ : b.x = none ∧ b.y = none := by simpa [hasXY] using hxy
    cases m with
    | x => exact hx.trans (congrArg (Option.map _) hx).symm
    | y => exact hy.trans (congrArg (Option.map _) hy).symm

theorem z_moved : (b.moved delta).axes.get .z = b.axes.get .z := by
  simp only [moved, shifted, h, if_true]
  split
  · exact b.axes.get_set_plane_of_ne _ _ (by decide) (by decide)
  · rfl

theorem offset_moved (m : MirrorAxis) : (b.moved delta).mirrorOffset m = b.mirrorOffset m := by
  simp only [moved, shifted, h, if_true]
  split <;> cases m <;> rfl

end Block

theorem Block.repeats_none_moved (delta : Point α) {b : Block α} (h : b.Repeats none) :
    (b.moved delta).Repeats none := by
  have hidle : b.hasXY = false := by simp [hasXY, x, y, h.axes]
  have hsame : b.moved delta = b := by
    simp only [moved, shifted, hidle, carriesShift]
    cases b.absolute <;> simp
  rwa [hsame]

/-- An offset of an absolute program shifts every line for itself. -/
theorem Program.shift_eq {p : Program α} (hrelative : p.containsRelative = false)
    (habsolute : ∀ b ∈ p.lines, b.absolute = true) (heditable : ∀ b ∈ p.lines, b.isEditable = true)
    (delta : Point α) (comment : String) : p.shift delta comment = p.mapLines (Block.moved delta) := by
  have hline : ∀ (pending : Pending), ∀ e ∈ p.entries,
      (if e.line.isEditable then
          ((e.line.shifted delta pending).1, ({ e with line := (e.line.shifted delta pending).2 } : Entry α))
        else (pending, e)) =
        ((e.line.shifted delta pending).1, { e with line := e.line.moved delta }) := by
    intro pending e he
    have hmem : e.line ∈ p.lines := List.mem_map_of_mem he
    rw [if_pos (heditable _ hmem), Block.shifted_of_absolute delta (habsolute _ hmem)]
  have hmove : p.withOffsetMove comment = p := by simp [withOffsetMove, hrelative]
  rw [shift, hmove, shiftLines, mapLines, pass_congr hline]
  have hmap := map_pass (g := id) (f := fun e : Entry α => ({ e with line := e.line.moved delta } : Entry α))
    (fun (pending : Pending) e =>
      (rfl : ((e.line.shifted delta pending).1, ({ e with line := e.line.moved delta } : Entry α)).2 = _))
    ⟨true, true⟩ p.entries
  rw [List.map_id] at hmap
  rw [← hmap]

end

variable {α : Type} [Field α] [LinearOrder α] [IsStrictOrderedRing α] [FloorRing α] [PlaneFunctions α]

/-! ### Extents that are shifted -/

/-- The shift by `-delta`. -/
def PlaneMap.back (delta : Point α) : PlaneMap α := ⟨fun _ => 1, fun m => -m.along delta⟩

namespace PlaneMap

variable (delta : Point α)

omit [IsStrictOrderedRing α] in
theorem coordinate_back (m : MirrorAxis) (v : α) : (back delta).coordinate m v = v - m.along delta := by
  change 1 * v + -m.along delta = _
  ring

omit [IsStrictOrderedRing α] in
theorem point_back (p : Point α) : (back delta).point p = p - delta := by
  ext <;> exact coordinate_back delta _ _

omit [IsStrictOrderedRing α] in
theorem back_point_eq : (back delta).point = fun p => p - delta := by
  funext p
  exact point_back delta p

omit [IsStrictOrderedRing α] in
theorem range_back (m : MirrorAxis) (r : Range α) :
    (back delta).range m r = ⟨r.lo - m.along delta, r.hi - m.along delta⟩ := by
  have hfactor : 0 ≤ (back delta).factor m := zero_le_one
  rw [range, if_pos hfactor, coordinate_back, coordinate_back]

end PlaneMap

omit [IsStrictOrderedRing α] in
/-- An anchor moves with its extent. -/
theorem Anchor.point_back (anchor : Anchor) (delta : Point α) {e : Extent α} (h : e.isEmpty = false) :
    anchor.point ((PlaneMap.back delta).extent e) = anchor.point e - delta := by
  have htwo : (Scalar.ofNat 2 : α) = 2 := Nat.cast_ofNat
  have hcenter : ∀ lo hi d : α, (lo - d + (hi - d)) / Scalar.ofNat 2 = (lo + hi) / Scalar.ofNat 2 - d := by
    intro lo hi d
    rw [htwo]
    ring
  obtain ⟨x, y, z⟩ := e
  cases x with
  | none => simp [Extent.isEmpty] at h
  | some x =>
      cases y with
      | none => simp [Extent.isEmpty] at h
      | some y =>
          simp only [PlaneMap.extent, Option.map_some, PlaneMap.range_back]
          cases anchor <;> ext <;> first | rfl | exact hcenter _ _ _

omit [IsStrictOrderedRing α] in
/-- An extent that has been shifted from its anchor, and by a distance beyond. -/
theorem Anchor.extent_back (anchor : Anchor) (extra : Point α) {e : Extent α} (h : e.isEmpty = false) :
    let delta := anchor.point e + extra
    let e' := (PlaneMap.back delta).extent e
    e'.x = e.x.map (fun r => ⟨r.lo - delta.x, r.hi - delta.x⟩) ∧
      e'.y = e.y.map (fun r => ⟨r.lo - delta.y, r.hi - delta.y⟩) ∧ anchor.point e' = ⟨-extra.x, -extra.y⟩ := by
  intro delta e'
  refine ⟨?_, ?_, ?_⟩
  · exact congrArg (e.x.map ·) (funext fun r => PlaneMap.range_back delta .x r)
  · exact congrArg (e.y.map ·) (funext fun r => PlaneMap.range_back delta .y r)
  · rw [anchor.point_back delta h]
    ext
    · exact sub_add_cancel_left _ _
    · exact sub_add_cancel_left _ _

/-! ### Arcs that are shifted -/

/-- The second arc is the first one shifted by `-delta`. How far it turns is left open. -/
structure Arc.ShiftedBy (delta : Point α) (a a' : Arc α) : Prop where
  center : a'.center = a.center - delta
  radius : a'.radius = a.radius
  startAngle : a'.startAngle = a.startAngle

/-- A block with the same arc offsets runs the arc from shifted ends. It turns as far as before if and only
if the motion is the same. -/
theorem Block.rel_arcBetween_sub {b b' : Block α} (hi : b'.i = b.i) (hj : b'.j = b.j)
    (harc : b'.motion.isArc = b.motion.isArc) (p q delta : Point α) :
    Option.Rel (fun a a' => a.ShiftedBy delta a' ∧ (a'.sweep = a.sweep ↔ b'.motion = b.motion)) (b.arcBetween p q)
      (b'.arcBetween (p - delta) (q - delta)) := by
  refine rel_arcBetween harc (by rw [hi, hj]) fun w w' hw hw' _ => ?_
  rw [hi, hj, hw, hw', Arc.ofOffsets_sub]
  refine ⟨⟨rfl, rfl, rfl⟩, ?_⟩
  constructor
  · intro hsweep
    have hclockwise := Arc.isClockwise_ofOffsets p q (b.i.getD 0) (b.j.getD 0)
    have hsense : decide (w' = .clockwise) = decide (w = .clockwise) := by
      rw [← hclockwise w', ← hclockwise w, Arc.isClockwise_eq, Arc.isClockwise_eq]
      exact congrArg (fun v : α => decide (v < 0)) hsweep
    cases w <;> cases w' <;> simp at hsense ⊢
  · intro hmotion
    obtain rfl : w' = w := by simpa using hmotion
    rfl

/-! ### The whole path -/

namespace Program

omit [Field α] [LinearOrder α] [IsStrictOrderedRing α] [FloorRing α] [PlaneFunctions α] in
/-- An absolute rapid move to a point of the plane anchors both coordinates. -/
theorem anchors_of_isPositioning {b : Block α} (h : b.isPositioning = true) (habsolute : b.absolute = true)
    (m : MirrorAxis) : b.anchors m = true := by
  simp only [Block.isPositioning, Bool.and_eq_true] at h
  cases m with
  | x => exact Bool.and_eq_true_iff.mpr ⟨habsolute, h.1.2⟩
  | y => exact Bool.and_eq_true_iff.mpr ⟨habsolute, h.2⟩

omit [IsStrictOrderedRing α] in
/-- Every step of a shifted program has shifted words. -/
theorem Settled.mappedBy_moved {p : Program α} {machine : Machine α} (h : p.Settled machine) (delta : Point α)
    (habsolute : ∀ b ∈ p.executed, b.absolute = true) {b : Block α} (hb : b ∈ p.executed) :
    b.MappedBy (.back delta) (p.revised (Block.moved delta) b) := by
  have hline : ∀ line, p.HasWordsOf b line → line.absolute = true := by
    rintro line (hline | ⟨-, rfl⟩)
    · exact habsolute _ (mem_executed_of_mem_lines (List.mem_of_getElem? hline))
    · exact habsolute _ hb
  refine h.mappedBy (fun line _ => line.rewordOf_moved delta) (fun _ => Block.repeats_none_moved delta) hb ?_ ?_ ?_
  · intro line hsource m
    simp only [habsolute b hb, if_true, PlaneMap.coordinate_back]
    exact Block.word_moved delta (hline line hsource) m
  · exact fun line hsource => Block.z_moved delta (hline line hsource)
  · intro line hsource m
    rw [Block.offset_moved delta (hline line hsource)]
    cases line.mirrorOffset m <;> simp [PlaneMap.back]

omit [IsStrictOrderedRing α] in
/-- A line that has been read and not been edited turns no arc around when it is shifted. -/
theorem motion_revised_moved_iff {lines : List String} {settings : Settings α} {machine : Machine α} {b : Block α}
    (habsolute : ∀ b ∈ (ofLines lines settings machine).lines, b.absolute = true) (delta : Point α) :
    ((ofLines lines settings machine).revised (Block.moved delta) b).motion = b.motion ↔
      (ofLines lines settings machine).KeepsSense Block.hasXY b := by
  refine motion_revised_iff (fun line hline => Block.moved_motion delta line) fun line hline => ?_
  exact Block.moved_modified delta (habsolute line hline)
    (modified_place (modified_asRead lines settings) machine line hline)

namespace Reworded

variable {p q : Program α} {machine : Machine α} {delta : Point α} {k : ℕ} {first : Block α}
  (h : Reworded (Block.moved delta) machine p q) (hp : p.Settled machine)
  (habsolute : ∀ b ∈ p.executed, b.absolute = true) (hfirst : p.executed[k]? = some first)
  (hpositioning : first.isPositioning = true)

include habsolute hfirst hpositioning

omit [IsStrictOrderedRing α] in
/-- A positioning move anchors both coordinates. -/
theorem after_back_eq {n : ℕ} (hn : k < n) :
    (PlaneMap.back delta).after machine.workPosition.xy (p.executed.take n) = .back delta := by
  refine PlaneMap.after_eq _ _ fun m => .inl (List.any_eq_true.mpr ⟨first, ?_, ?_⟩)
  · exact List.mem_of_getElem? ((List.getElem?_take_of_lt hn).trans hfirst)
  · exact anchors_of_isPositioning hpositioning (habsolute _ (List.mem_of_getElem? hfirst)) m

include h hp

omit [IsStrictOrderedRing α] in
theorem target_moved {n : ℕ} {b b' : Block α} (hn : k ≤ n) (hb : p.executed[n]? = some b)
    (hb' : q.executed[n]? = some b') :
    b'.place.target.xy = b.place.target.xy - delta ∧ b'.place.target.z = b.place.target.z := by
  obtain ⟨-, htarget, -⟩ := h.mapped hp (fun b => hp.mappedBy_moved delta habsolute) hb hb'
  rw [htarget, after_back_eq habsolute hfirst hpositioning (by omega), PlaneMap.position_xy, PlaneMap.point_back]
  exact ⟨rfl, rfl⟩

theorem arc_moved {n : ℕ} {b b' : Block α} (hn : k < n) (hb : p.executed[n]? = some b)
    (hb' : q.executed[n]? = some b') :
    Option.Rel (fun a a' => a.ShiftedBy delta a' ∧
      (a'.sweep = a.sweep ↔ (p.revised (Block.moved delta) b).motion = b.motion)) b.place.arc b'.place.arc := by
  have hmem := List.mem_of_getElem? hb
  have hrevised := h.forall₂_getElem? hb hb'
  have hwords := hp.mappedBy_moved delta habsolute hmem
  have hi : b'.i = b.i := by
    rw [hrevised]
    simpa [PlaneMap.back, Block.mirrorOffset] using hwords.offset .x
  have hj : b'.j = b.j := by
    rw [hrevised]
    simpa [PlaneMap.back, Block.mirrorOffset] using hwords.offset .y
  have hmotion : b'.motion = (p.revised (Block.moved delta) b).motion := by rw [hrevised]
  obtain ⟨horigin, -, -⟩ := h.mapped hp (fun b => hp.mappedBy_moved delta habsolute) hb hb'
  obtain ⟨htarget, -⟩ := target_moved h hp habsolute hfirst hpositioning hn.le hb hb'
  rw [hp.arc_eq hmem, h.settled.arc_eq (List.mem_of_getElem? hb'), htarget, horigin,
    after_back_eq habsolute hfirst hpositioning hn, PlaneMap.position_xy, PlaneMap.point_back, ← hmotion]
  exact Block.rel_arcBetween_sub hi hj (hmotion ▸ hwords.isArc) _ _ _

/-- Where no arc is turned around and nothing is cut before the positioning move, the extent is shifted. -/
theorem extent_moved (hidle : ∀ b ∈ p.executed.take k, b.motion.isEngaged = false)
    (hmotion : ∀ b ∈ p.executed, (p.revised (Block.moved delta) b).motion = b.motion) :
    q.extent = (PlaneMap.back delta).extent p.extent := by
  have hbox : ∀ {a a' : Arc α}, a.ShiftedBy delta a' → a'.sweep = a.sweep →
      a'.boxPoints.Perm (a.boxPoints.map (PlaneMap.back delta).point) := by
    rintro a a' ⟨hcenter, hradius, hstart⟩ hsweep
    have heq : a' = { a with center := a.center - delta } := by
      rw [← hcenter, ← hradius, ← hstart, ← hsweep]
    rw [heq, Arc.boxPoints_sub, PlaneMap.back_point_eq]
  refine h.extent_eq hp (fun b => hp.mappedBy_moved delta habsolute) fun n b b' hb hb' _ hengaged _ => ?_
  have hmem := List.mem_of_getElem? hb
  have hn : k < n := by
    rcases Nat.lt_trichotomy n k with hlt | rfl | hlt
    · have hb_idle := hidle b (List.mem_of_getElem? ((List.getElem?_take_of_lt hlt).trans hb))
      simp [hb_idle] at hengaged
    · obtain rfl : b = first := by simpa [hb] using hfirst
      simp only [Block.isPositioning, Bool.and_eq_true, beq_iff_eq] at hpositioning
      simp [hpositioning.1.1, Motion.isEngaged] at hengaged
    · exact hlt
  refine ⟨after_back_eq habsolute hfirst hpositioning hn, ?_⟩
  have harc := arc_moved h hp habsolute hfirst hpositioning hn hb hb'
  exact Option.rel_imp (fun a a' hshift => hbox hshift.1 (hshift.2.mpr (hmotion b hmem))) harc

end Reworded

/-- From its first positioning move on, a shifted program takes the tool along the shifted path. Arcs keep their
radius and the direction in which they start, and they turn as far as before if they still run in the sense in
which their lines have been read. If all of them do, the extent is the shifted one, and the anchor comes to lie
where it has been asked to. -/
theorem anchors_apply (text : String) (settings : Settings α) (machine : Machine α) (anchor : Anchor)
    (extra : Point α) :
    let p := read text settings machine
    let q := (Edit.apply (.offset anchor extra) p settings machine).1
    let delta := anchor.point p.extent + extra
    (∀ line ∈ Text.lines text, ¬selectsRelative α line) → (∀ b ∈ p.lines, b.isEditable = true) →
      p.extent.isEmpty = false →
      ∀ k first, p.executed[k]? = some first → first.isPositioning = true →
      (∀ b ∈ p.executed.take k, b.motion.isEngaged = false) →
        q.executed.length = p.executed.length ∧
        (∀ n b b', k ≤ n → p.executed[n]? = some b → q.executed[n]? = some b' →
          b'.place.target.xy = b.place.target.xy - delta ∧ b'.place.target.z = b.place.target.z ∧
          (k < n → Option.Rel (fun a a' => a.ShiftedBy delta a' ∧ (a'.sweep = a.sweep ↔ p.KeepsSense Block.hasXY b))
            b.place.arc b'.place.arc)) ∧
        ((∀ b ∈ p.executed, p.KeepsSense Block.hasXY b) →
          q.extent.x = p.extent.x.map (fun r => ⟨r.lo - delta.x, r.hi - delta.x⟩) ∧
          q.extent.y = p.extent.y.map (fun r => ⟨r.lo - delta.y, r.hi - delta.y⟩) ∧
          anchor.point q.extent = ⟨-extra.x, -extra.y⟩) := by
  intro p q delta hwords heditable hextent k first hfirst hpositioning hidle
  have hp : p.Settled machine := settled_ofLines heditable
  have habsolute : ∀ b ∈ p.executed, b.absolute = true := absolute_executed hwords
  have habsolute_lines : ∀ b ∈ p.lines, b.absolute = true := fun b hb =>
    habsolute b (mem_executed_of_mem_lines hb)
  have hrelative : p.containsRelative = false := by
    cases hcontains : p.containsRelative with
    | false => rfl
    | true =>
        obtain ⟨line, hline, hselects⟩ := exists_selectsRelative hcontains
        exact absurd hselects (hwords line hline)
  have hq : Reworded (Block.moved delta) machine p q :=
    hp.apply (by simp) (shift_eq hrelative habsolute_lines heditable delta _) fun line _ =>
      line.rewordOf_moved delta
  refine ⟨hq.forall₂.length_eq.symm, ?_, ?_⟩
  · intro n b b' hn hb hb'
    obtain ⟨hxy, hz⟩ := hq.target_moved hp habsolute hfirst hpositioning hn hb hb'
    refine ⟨hxy, hz, fun hlater => ?_⟩
    have hmotion : (p.revised (Block.moved delta) b).motion = b.motion ↔ p.KeepsSense Block.hasXY b :=
      motion_revised_moved_iff habsolute_lines delta
    rw [← hmotion]
    exact hq.arc_moved hp habsolute hfirst hpositioning hlater hb hb'
  · intro hsense
    have hbox : q.extent = (PlaneMap.back delta).extent p.extent :=
      hq.extent_moved hp habsolute hfirst hpositioning hidle fun b hb =>
        (motion_revised_moved_iff habsolute_lines delta).mpr (hsense b hb)
    rw [hbox]
    exact anchor.extent_back extra hextent

/-- An arc in a body, and an anchor with a distance that has been asked for. -/
theorem anchors_center :
    let _ := PlaneFunctions.axial
    let machine : Machine ℚ := .default
    let text := "G0 Z5\nX2 Y1\nM98 P1\nG1 Y9\nM30\nO1\nG3 X10 I4 F100\nM99\n"
    let p := read text .default machine
    let extra : Point ℚ := ⟨1, 2⟩
    let q := (Edit.apply (.offset .center extra) p .default machine).1
    let delta := Anchor.center.point p.extent + extra
    ((∀ line ∈ Text.lines text, ¬selectsRelative ℚ line) ∧ (∀ b ∈ p.lines, b.isEditable = true) ∧
      p.extent.isEmpty = false ∧ (∀ b ∈ p.executed.take 1, b.motion.isEngaged = false) ∧
      ∀ b ∈ p.executed, p.KeepsSense Block.hasXY b) ∧
    ∃ first b b', p.executed[1]? = some first ∧ p.executed[3]? = some b ∧ q.executed[3]? = some b' ∧
      first.isPositioning = true ∧ b.place.arc.isSome = true ∧ b.place.target.xy = ⟨10, 1⟩ ∧
      b'.place.target.xy = ⟨10, 1⟩ - delta ∧
      Option.Rel (fun a a' => a.ShiftedBy delta a' ∧ (a'.sweep = a.sweep ↔ p.KeepsSense Block.hasXY b)) b.place.arc
        b'.place.arc ∧
      Anchor.center.point q.extent = ⟨-1, -2⟩ := by
  intro _ machine text p extra q delta
  have hwords : ∀ line ∈ Text.lines text, ¬selectsRelative ℚ line := by
    unfold selectsRelative
    decide +kernel
  have heditable : ∀ b ∈ p.lines, b.isEditable = true := by decide +kernel
  have hextent : p.extent.isEmpty = false := by decide +kernel
  have hidle : ∀ b ∈ p.executed.take 1, b.motion.isEngaged = false := by decide +kernel
  have hsense : ∀ b ∈ p.executed, p.KeepsSense Block.hasXY b := by
    unfold KeepsSense
    decide +kernel
  have hexecuted : ∃ first b b', p.executed[1]? = some first ∧ p.executed[3]? = some b ∧ q.executed[3]? = some b' := by
    have hfirst : (p.executed[1]?).isSome = true := by decide +kernel
    have hb : (p.executed[3]?).isSome = true := by decide +kernel
    have hb' : (q.executed[3]?).isSome = true := by decide +kernel
    obtain ⟨first, hfirst⟩ := Option.isSome_iff_exists.mp hfirst
    obtain ⟨b, hb⟩ := Option.isSome_iff_exists.mp hb
    obtain ⟨b', hb'⟩ := Option.isSome_iff_exists.mp hb'
    exact ⟨first, b, b', hfirst, hb, hb'⟩
  obtain ⟨first, b, b', hfirst, hb, hb'⟩ := hexecuted
  have hpositioning : first.isPositioning = true := by
    have hpositioning : p.executed[1]?.map (·.isPositioning) = some true := by decide +kernel
    rwa [hfirst, Option.map_some, Option.some_inj] at hpositioning
  have harc : b.place.arc.isSome = true := by
    have harc : (p.executed[3]?.bind (·.place.arc)).isSome = true := by decide +kernel
    rwa [hb] at harc
  have htarget : b.place.target.xy = ⟨10, 1⟩ := by
    have htarget : p.executed[3]?.map (·.place.target.xy) = some ⟨10, 1⟩ := by decide +kernel
    rwa [hb, Option.map_some, Option.some_inj] at htarget
  obtain ⟨-, hsteps, hanchor⟩ := anchors_apply text .default machine .center extra hwords heditable hextent 1 first
    hfirst hpositioning hidle
  obtain ⟨hmoved, -, hrel⟩ := hsteps 3 b b' (by decide) hb hb'
  rw [htarget] at hmoved
  exact ⟨⟨hwords, heditable, hextent, hidle, hsense⟩, first, b, b', hfirst, hb, hb', hpositioning, harc, htarget,
    hmoved, hrel (by decide), (hanchor hsense).2.2⟩

-- The body has been read after G2 and is called after G3. Once it has been shifted, its copy runs as it was read.
example :
    let _ := PlaneFunctions.axial
    let machine : Machine ℚ := .default
    let p := read "G0 X0 Y0\nG3\nM98 P1\nG2\nM30\nO1\nX10 Y0 I5 J0\nM99\n" .default machine
    let q := (Edit.apply (.offset .bottomLeft ⟨0, 0⟩) p .default machine).1
    p.executed[3]?.map (·.motion) = some (.arc .counterclockwise) ∧
      q.executed[3]?.map (·.motion) = some (.arc .clockwise) ∧ Anchor.bottomLeft.point q.extent = ⟨0, 5⟩ := by
  decide +kernel

end Program

end PartProgram
