import PartProgram.Proofs.Pass
import PartProgram.Proofs.Plane.Arc
import PartProgram.Proofs.Program.Running

/-! # Runs under maps of the plane

Two programs run side by side, and the words of the second are those of the first under a map that takes
each coordinate for itself. Then the second takes the tool through the images. As long as a coordinate has
had no absolute word, only its displacements are mapped, and the place where the tool starts stays where it
is.
-/

namespace PartProgram

theorem Option.rel_imp {β γ : Type} {R S : β → γ → Prop} (hR : ∀ x y, R x y → S x y) {x : Option β} {y : Option γ}
    (h : Option.Rel R x y) : Option.Rel S x y := by
  cases h with
  | none => exact .none
  | some hxy => exact .some (hR _ _ hxy)

/-- The line has an absolute word for the mirrored coordinate. -/
def Block.anchors {α : Type} (m : MirrorAxis) (b : Block α) : Bool :=
  b.absolute && (b.axes.get m.axis).isSome

variable {α : Type} [Field α]

/-- The map that a run has come to: `f` itself for the coordinates that have had an absolute word, and for
the others the map with the factor of `f` that keeps the start in its place. -/
def PlaneMap.after (f : PlaneMap α) (start : Point α) (before : List (Block α)) : PlaneMap α where
  factor := f.factor
  shift m := if before.any (Block.anchors m) then f.shift m else m.along start - f.factor m * m.along start

theorem PlaneMap.after_nil_position (f : PlaneMap α) (p : Position α) : (f.after p.xy []).position p = p := by
  have hstart : ∀ m, (f.after p.xy []).coordinate m (m.along p.xy) = m.along p.xy := by
    intro m
    simp [coordinate, after]
  have hx := hstart .x
  have hy := hstart .y
  rw [position]
  change Position.mk _ _ _ = _
  rw [show (f.after p.xy []).coordinate .x p.x = p.x from hx, show (f.after p.xy []).coordinate .y p.y = p.y from hy]

/-- Once every coordinate has had an absolute word, the run is the image under the map. -/
theorem PlaneMap.after_eq (f : PlaneMap α) (start : Point α) {before : List (Block α)}
    (h : ∀ m, before.any (Block.anchors m) = true ∨ m.along start - f.factor m * m.along start = f.shift m) :
    f.after start before = f := by
  obtain ⟨factor, shift⟩ := f
  have hshift : ∀ m : MirrorAxis, (if before.any (Block.anchors m) then shift m
      else m.along start - factor m * m.along start) = shift m := by
    intro m
    rcases h m with hm | hm
    · rw [if_pos hm]
    · rw [show m.along start - factor m * m.along start = shift m from hm, ite_self]
  simp only [after, hshift]

/-- It stays so. -/
theorem PlaneMap.after_append_eq (f : PlaneMap α) {start : Point α} {before : List (Block α)}
    (h : f.after start before = f) (bs : List (Block α)) : f.after start (before ++ bs) = f := by
  apply f.after_eq
  intro m
  cases hbefore : before.any (Block.anchors m) with
  | true =>
      left
      rw [List.any_append, hbefore, Bool.true_or]
  | false =>
      right
      have hshift := congrArg (fun g : PlaneMap α => g.shift m) h
      simp only [after, hbefore, Bool.false_eq_true, if_false] at hshift
      exact hshift

/-- The second block has the words of the first under the map: coordinates are mapped, displacements and
arc offsets are multiplied by the factor of the map. -/
structure Block.MappedBy (f : PlaneMap α) (b b' : Block α) : Prop where
  absolute : b'.absolute = b.absolute
  inWork : b.machineFrame = false ∧ b'.machineFrame = false
  word : ∀ m : MirrorAxis, b'.axes.get m.axis = (b.axes.get m.axis).map fun v =>
    if b.absolute then f.coordinate m v else f.factor m * v
  z : b'.axes.get .z = b.axes.get .z
  offset : ∀ m, b'.mirrorOffset m = (b.mirrorOffset m).map (f.factor m * ·)
  isArc : b'.motion.isArc = b.motion.isArc

variable [LinearOrder α] [IsStrictOrderedRing α] [FloorRing α] [PlaneFunctions α]

namespace Block

section

variable {b b' : Block α} {R : Arc α → Arc α → Prop} {p q p' q' : Point α}

omit [IsStrictOrderedRing α] in
theorem arcBetween_eq {w : Winding} (hwinding : b.motion.winding? = some w)
    (hoffset : (b.i.isSome || b.j.isSome) = true) (p q : Point α) :
    b.arcBetween p q = some (Arc.ofOffsets p q (b.i.getD 0) (b.j.getD 0) w) := by
  have hzero : (Scalar.ofNat 0 : α) = 0 := Nat.cast_zero
  rw [← hzero]
  simp only [arcBetween, hwinding, hoffset, if_true]
  rfl

omit [IsStrictOrderedRing α] in
/-- Two blocks that both have an arc, or both have none, are compared by their arcs. -/
theorem rel_arcBetween (harc : b'.motion.isArc = b.motion.isArc)
    (hoffset : (b'.i.isSome || b'.j.isSome) = (b.i.isSome || b.j.isSome))
    (h : ∀ w w', b.motion = .arc w → b'.motion = .arc w' → (b.i.isSome || b.j.isSome) = true →
      R (Arc.ofOffsets p q (b.i.getD 0) (b.j.getD 0) w) (Arc.ofOffsets p' q' (b'.i.getD 0) (b'.j.getD 0) w')) :
    Option.Rel R (b.arcBetween p q) (b'.arcBetween p' q') := by
  have hsome := b.isSome_arcBetween p q
  have hsome' := b'.isSome_arcBetween p' q'
  rw [harc, hoffset, ← hsome] at hsome'
  by_cases hb : b.motion.isArc = true ∧ (b.i.isSome || b.j.isSome) = true
  · obtain ⟨hmotion, hwords⟩ := hb
    obtain ⟨w, hw⟩ := Option.isSome_iff_exists.mp hmotion
    obtain ⟨w', hw'⟩ := Option.isSome_iff_exists.mp (harc.trans hmotion)
    rw [arcBetween_eq hw hwords, arcBetween_eq hw' (hoffset.trans hwords)]
    refine .some (h w w' ?_ ?_ hwords)
    · cases hm : b.motion <;> simp_all [Motion.winding?]
    · cases hm : b'.motion <;> simp_all [Motion.winding?]
  · have hnone : (b.arcBetween p q).isSome = false := by
      rw [hsome]
      simpa using hb
    rw [hnone] at hsome'
    rw [Option.isSome_eq_false_iff, Option.isNone_iff_eq_none] at hnone hsome'
    rw [hnone, hsome']
    exact .none

end

namespace MappedBy

variable {f : PlaneMap α} {b b' : Block α} (h : MappedBy f b b')

include h

omit [LinearOrder α] [IsStrictOrderedRing α] [FloorRing α] [PlaneFunctions α] in
theorem placed (place : Placement α) : MappedBy f b { b' with place } :=
  ⟨h.absolute, h.inWork, h.word, h.z, h.offset, h.isArc⟩

omit [IsStrictOrderedRing α] in
/-- The block takes the image of a coordinate to an image. -/
theorem axisTarget (start : Point α) (before : List (Block α)) (m : MirrorAxis) (previous offset : α) :
    b'.axisTarget m.axis ((f.after start before).coordinate m previous) offset =
      (f.after start (before ++ [b])).coordinate m (b.axisTarget m.axis previous offset) := by
  have hword := h.word m
  cases hb : b.axes.get m.axis with
  | none =>
      rw [hb] at hword
      have hanchors : b.anchors m = false := by simp [anchors, hb]
      simp only [Block.axisTarget, hb, hword, Option.map_none, PlaneMap.coordinate, PlaneMap.after,
        List.any_append, List.any_cons, List.any_nil, hanchors, Bool.or_false]
  | some v =>
      rw [hb] at hword
      simp only [Block.axisTarget, hb, hword, Option.map_some, h.absolute, h.inWork.1, h.inWork.2,
        Bool.false_eq_true, if_false]
      cases habsolute : b.absolute with
      | true =>
          have hanchors : b.anchors m = true := by simp [anchors, hb, habsolute]
          simp [PlaneMap.coordinate, PlaneMap.after, hanchors]
      | false =>
          have hanchors : b.anchors m = false := by simp [anchors, habsolute]
          simp only [PlaneMap.coordinate, PlaneMap.after, List.any_append, List.any_cons, List.any_nil, hanchors,
            Bool.or_false, Bool.false_eq_true, if_false]
          ring

omit [IsStrictOrderedRing α] in
theorem targetFrom (start : Point α) (before : List (Block α)) (machine : Machine α) (p : Position α) :
    b'.targetFrom machine ((f.after start before).position p) =
      (f.after start (before ++ [b])).position (b.targetFrom machine p) := by
  have hx := h.axisTarget start before .x p.x machine.workOffset.x
  have hy := h.axisTarget start before .y p.y machine.workOffset.y
  have hz : b'.axisTarget .z p.z machine.workOffset.z = b.axisTarget .z p.z machine.workOffset.z := by
    simp only [Block.axisTarget, h.z, h.absolute, h.inWork.1, h.inWork.2]
  simp only [Block.targetFrom, PlaneMap.position]
  rw [← hz]
  exact congrArg₂ (fun x y => Position.mk x y _) hx hy

omit [IsStrictOrderedRing α] in
/-- The centre of the arc is the image of the centre. -/
theorem center_arcBetween (start : Point α) (before : List (Block α)) (p q q' : Point α) :
    Option.Rel (fun a a' => a'.center = (f.after start before).point a.center) (b.arcBetween p q)
      (b'.arcBetween ((f.after start before).point p) q') := by
  have hi := h.offset .x
  have hj := h.offset .y
  change b'.i = b.i.map _ at hi
  change b'.j = b.j.map _ at hj
  refine rel_arcBetween h.isArc (by rw [hi, hj, Option.isSome_map, Option.isSome_map]) fun w w' _ _ _ => ?_
  have hoffset : ∀ (m : MirrorAxis) (o : Option α), (o.map (f.factor m * ·)).getD 0 = f.factor m * o.getD 0 := by
    intro m o
    cases o <;> simp
  rw [hi, hj, hoffset, hoffset]
  ext
  · change (f.after start before).coordinate .x p.x + _ = (f.after start before).coordinate .x (p.x + b.i.getD 0)
    simp only [PlaneMap.coordinate, PlaneMap.after]
    ring
  · change (f.after start before).coordinate .y p.y + _ = (f.after start before).coordinate .y (p.y + b.j.getD 0)
    simp only [PlaneMap.coordinate, PlaneMap.after]
    ring

end MappedBy

end Block

theorem List.take_succ_of_getElem? {β : Type} {xs : List β} {n : ℕ} {x : β} (h : xs[n]? = some x) :
    xs.take (n + 1) = xs.take n ++ [x] := by
  rw [List.take_add_one, h]
  rfl

omit [IsStrictOrderedRing α] in
/-- A run through mapped blocks takes the tool through the images. -/
theorem Tool.pass_mappedBy {f : PlaneMap α} {machine : Machine α} {t : Tool α} {bs bs' : List (Block α)}
    (hplaced : (pass (step machine) t bs).2 = bs) (h : List.Forall₂ (Block.MappedBy f) bs bs') {n : ℕ} {b b' : Block α}
    (hb : bs[n]? = some b) (hb' : (pass (step machine) t bs').2[n]? = some b') :
    b'.place.origin = (f.after t.position.xy (bs.take n)).position b.place.origin ∧
      b'.place.target = (f.after t.position.xy (bs.take (n + 1))).position b.place.target ∧
      Option.Rel (fun a a' => a'.center = (f.after t.position.xy (bs.take n)).point a.center) b.place.arc
        b'.place.arc := by
  rw [List.take_succ_of_getElem? hb]
  rw [← hplaced] at h hb
  have hsteps := getElem?_pass_simulation
    (I := fun before s s' => s'.position = (f.after t.position.xy before).position s.position)
    (Q := fun before b b' =>
      b'.place.origin = (f.after t.position.xy before).position b.place.origin ∧
      b'.place.target = (f.after t.position.xy (before ++ [b])).position b.place.target ∧
      Option.Rel (fun a a' => a'.center = (f.after t.position.xy before).point a.center) b.place.arc b'.place.arc)
    ?_ [] (f.after_nil_position t.position).symm h hb hb'
  · rwa [hplaced, List.nil_append] at hsteps
  intro before s s' x x' hposition hx
  have htarget := hx.targetFrom t.position.xy before machine s.position
  have harc := hx.center_arcBetween t.position.xy before s.position.xy (x.targetFrom machine s.position).xy
    (x'.targetFrom machine s'.position).xy
  rw [targetFrom_step] at htarget
  rw [arcBetween_step] at harc
  rw [hposition] at harc
  refine ⟨?_, ?_, ?_, ?_⟩
  · rwa [step_position, step_position, hposition]
  · rw [step_origin, step_origin, hposition]
  · rwa [step_target, step_target, hposition]
  · rwa [step_arc, step_arc, hposition]

end PartProgram
