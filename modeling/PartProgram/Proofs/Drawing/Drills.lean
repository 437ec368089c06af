import PartProgram.Proofs.Drawing.Contours

/-! # Drills

The path marks a drill where the pen is lifted after several moves along Z. Those count that have been drawn since
the last move in the plane, and that move counts too if it changes Z. So a ramp can pass for a plunge.
-/

namespace PartProgram

/-! ### Markers of a drawing -/

section

variable {α : Type}

theorem Canvas.mem_markers_foldl_add {c : Canvas α} {strokes : List (Stroke α)} {marker : Marker α} :
    marker ∈ (strokes.foldl add c).markers ↔ marker ∈ c.markers ∨ .mark marker ∈ strokes := by
  induction strokes generalizing c with
  | nil => simp
  | cons stroke strokes ih =>
      rw [List.foldl_cons, ih]
      cases stroke <;> simp [add, or_assoc]

/-- The markers of a drawing are those that are told to it. -/
theorem Drawing.mem_markers_ofStrokes {strokes : List (Stroke α)} {marker : Marker α} :
    marker ∈ (ofStrokes strokes).markers ↔ .mark marker ∈ strokes := by
  rw [ofStrokes, Canvas.drawing, Array.mem_toList_iff, Canvas.mem_markers_foldl_add]
  simp

end

variable {α : Type} [Scalar α]

/-! ### Moves along Z -/

namespace Block

/-- A drawn step that changes Z. -/
def movesZ (b : Block α) : Bool := b.isDrawn && b.place.origin.z != b.place.target.z

/-- The step starts at a place in the plane and leaves it as it is. -/
structure StaysAt (b : Block α) (place : Point α) : Prop where
  starts : (b.place.origin.xy == place) = true
  stays : (b.place.origin.xy == b.place.target.xy) = true

theorem staysAt_of_segment? {b : Block α} (h : b.segment? = none) : b.StaysAt b.place.target.xy := by
  have hsame : (b.place.origin.xy == b.place.target.xy) = true := by
    rw [segment?] at h
    split at h
    · simp at h
    · simpa [bne] using h
  exact ⟨hsame, hsame⟩

end Block

/-- Of a list in which several elements have a property, the last but one of them. -/
theorem exists_last_but_one {β : Type} {p : β → Bool} {xs : List β} (h : 1 < (xs.filter p).length) :
    ∃ front x back, xs = front ++ x :: back ∧ p x = true ∧ (back.filter p).length = 1 := by
  induction xs with
  | nil => simp at h
  | cons x xs ih =>
      by_cases hmore : 1 < (xs.filter p).length
      · obtain ⟨front, y, back, rfl, hy, hback⟩ := ih hmore
        exact ⟨x :: front, y, back, rfl, hy, hback⟩
      · have hx : p x = true := by
          by_contra hx
          rw [List.filter_cons_of_neg hx] at h
          exact hmore h
        rw [List.filter_cons_of_pos hx, List.length_cons] at h
        exact ⟨[], x, xs, rfl, hx, by omega⟩

/-- What is drawn of the step `b` of a path, after the steps `front`. -/
def strokesAt (size : α) (front : List (Block α)) (b : Block α) : List (Stroke α) :=
  ((pass (Tracer.step size none) .atStart front).1.step size none b).2

/-- A drill at a place: the last two moves along Z stay there, the first of them cuts, and the second is the step `b`,
which lifts the pen. -/
structure IsDrill (front : List (Block α)) (b : Block α) (place : Point α) : Prop where
  plunges : ∃ plunge ∈ (front.filter (·.movesZ)).getLast?, plunge.motion.isEngaged = true ∧ plunge.StaysAt place
  movesZ : b.movesZ = true
  lifts : b.layer = .penUp ∧ lastLayer none front ≠ some .penUp
  stays : b.StaysAt place

/-! ### What counts -/

/-- The run ends with `n` moves along Z that count: from some step on, nothing moves in the plane after the first step
that is drawn. -/
def Counts (bs : List (Block α)) (n : ℕ) : Prop :=
  ∃ before since, bs = before ++ since ∧ (since.filter (·.movesZ)).length = n ∧
    ∀ d ∈ (since.filter (·.isDrawn)).tail, d.segment? = none

theorem counts_zero (bs : List (Block α)) : Counts bs 0 := ⟨bs, [], by simp, rfl, by simp⟩

section

variable {bs : List (Block α)} {b : Block α} {n : ℕ}

theorem Counts.concat_of_not_isDrawn (h : Counts bs n) (hb : b.isDrawn = false) : Counts (bs ++ [b]) n := by
  obtain ⟨before, since, rfl, hcount, hstays⟩ := h
  have hmoves : b.movesZ = false := by simp [Block.movesZ, hb]
  exact ⟨before, since ++ [b], by simp, by simpa [hmoves] using hcount, by simpa [hb] using hstays⟩

/-- Where several moves along Z count, nothing drawn moves in the plane after the last but one of them. -/
theorem Counts.exists_plunge (h : Counts bs n) (hn : 1 < n) :
    ∃ before plunge after, bs = before ++ plunge :: after ∧ plunge.movesZ = true ∧
      (after.filter (·.movesZ)).length = 1 ∧ ∀ d ∈ after, d.isDrawn = true → d.segment? = none := by
  obtain ⟨before, since, rfl, rfl, hstays⟩ := h
  obtain ⟨front, plunge, after, rfl, hplunge, hafter⟩ := exists_last_but_one hn
  have hdrawn : plunge.isDrawn = true := (Bool.and_eq_true_iff.mp hplunge).1
  refine ⟨before ++ front, plunge, after, by simp, hplunge, hafter, fun d hd hdrawn' => hstays d ?_⟩
  rw [List.filter_append, List.filter_cons_of_pos hdrawn]
  have hmem : d ∈ after.filter (·.isDrawn) := List.mem_filter.mpr ⟨hd, hdrawn'⟩
  cases front.filter (·.isDrawn) with
  | nil => exact hmem
  | cons first rest => simp [hmem]

end

namespace Tracer

section

variable {t : Tracer} {b : Block α} {size : α} {entering : Bool}

/-- The moves along Z that count when a block has been drawn. -/
def countedWith (t : Tracer) (b : Block α) : ℕ :=
  (if b.segment?.isSome then 0 else t.zMoves) + if b.place.origin.z != b.place.target.z then 1 else 0

/-- A drill is marked when the block is drawn. -/
def marksDrill (t : Tracer) (b : Block α) : Bool :=
  1 < t.countedWith b && t.layer != some b.layer && b.layer == .penUp

/-- What is drawn of a block, and what is left counted. -/
theorem draw_eq : t.draw size entering b =
    ({ t with layer := some b.layer, zMoves := if t.marksDrill b then 0 else t.countedWith b },
      (if entering then [.mark ⟨b.place.target.xy, .subroutineEntry, size⟩] else []) ++
        (if t.layer != some b.layer then [.start b.layer, .draw (.moveTo b.place.origin.xy)] else []) ++
        (b.segment?.map .draw).toList ++
        if t.marksDrill b then [.mark ⟨b.place.target.xy, .drill, size⟩] else []) := by
  have hcount : (if b.place.origin.z != b.place.target.z then (if b.segment?.isSome then 0 else t.zMoves) + 1
      else if b.segment?.isSome then 0 else t.zMoves) = t.countedWith b := by
    rw [countedWith]
    split <;> rfl
  simp only [draw, hcount]
  rfl

/-- A drill is marked where the block ends. -/
theorem mark_mem_draw {marker : Marker α} (hkind : marker.kind = .drill) :
    .mark marker ∈ (t.draw size entering b).2 ↔
      t.marksDrill b = true ∧ marker = ⟨b.place.target.xy, .drill, size⟩ := by
  have hentry : marker ≠ ⟨b.place.target.xy, .subroutineEntry, size⟩ := by
    rintro rfl
    simp at hkind
  rw [draw_eq]
  cases entering <;> cases t.layer != some b.layer <;> cases b.segment? <;> cases t.marksDrill b <;>
    simp [hentry]

/-- Drawing a block counts it. -/
theorem counts_countedWith {bs : List (Block α)} (h : Counts bs t.zMoves) (hdrawn : b.isDrawn = true) :
    Counts (bs ++ [b]) (t.countedWith b) := by
  have hmoves : (if b.place.origin.z != b.place.target.z then 1 else 0) = ([b].filter (·.movesZ)).length := by
    rw [List.filter_singleton, Block.movesZ, hdrawn, Bool.true_and]
    cases b.place.origin.z != b.place.target.z <;> rfl
  rw [countedWith, hmoves]
  cases hsegment : b.segment? with
  | some segment => exact ⟨bs, [b], rfl, by simp, by simp [hdrawn]⟩
  | none =>
      obtain ⟨before, since, rfl, hcount, hstays⟩ := h
      refine ⟨before, since ++ [b], by simp, by simp [List.filter_append, hcount], fun d hd => ?_⟩
      have hnew : [b].filter (·.isDrawn) = [b] := by simp [hdrawn]
      rw [List.filter_append, hnew] at hd
      cases hsince : since.filter (·.isDrawn) with
      | nil => simp [hsince] at hd
      | cons first rest =>
          rw [hsince, List.cons_append, List.tail_cons, List.mem_append, List.mem_singleton] at hd
          rcases hd with hd | rfl
          · exact hstays d (by simpa [hsince] using hd)
          · exact hsegment

variable (size) in
/-- What a run leaves counted. -/
theorem counts_pass (bs : List (Block α)) : Counts bs (pass (step size none) atStart bs).1.zMoves := by
  induction bs using List.reverseRecOn with
  | nil => exact counts_zero []
  | append_singleton bs b ih =>
      simp only [pass_append, pass_cons, pass_nil]
      cases hdrawn : b.isDrawn with
      | false =>
          rw [step_of_not_isDrawn hdrawn]
          exact ih.concat_of_not_isDrawn hdrawn
      | true =>
          rw [step_of_isTraced hdrawn rfl, draw_eq]
          split
          · exact counts_zero _
          · exact counts_countedWith ih hdrawn

variable (size) in
theorem layer_pass (bs : List (Block α)) : (pass (step size none) atStart bs).1.layer = lastLayer none bs :=
  (shows_pass size none bs).1

end

end Tracer

/-! ### Marks -/

/-- The path marks a drill at the step `b`, after the steps `front`. -/
structure Program.MarksDrill (p : Program α) (unit : LengthUnit) (front : List (Block α)) (b : Block α)
    (marker : Marker α) : Prop where
  executed : ∃ back, p.executed = front ++ b :: back
  told : .mark marker ∈ strokesAt unit.markerSize front b
  drill : marker.kind = .drill

section

variable {size : α} {front : List (Block α)} {b : Block α} {marker : Marker α}

theorem mark_mem_strokesAt (hkind : marker.kind = .drill) : .mark marker ∈ strokesAt size front b ↔
    b.isDrawn = true ∧ (pass (Tracer.step size none) .atStart front).1.marksDrill b = true ∧
      marker = ⟨b.place.target.xy, .drill, size⟩ := by
  rw [strokesAt]
  cases hdrawn : b.isDrawn with
  | false => simp [Tracer.step_of_not_isDrawn hdrawn]
  | true =>
      rw [Tracer.step_of_isTraced hdrawn rfl, Tracer.mark_mem_draw hkind]
      exact (and_iff_right rfl).symm

/-- The step `b` lifts the pen after the steps `front` and does not move in the plane. Of the moves along Z up to there
the last but one is `plunge`, and nothing that is drawn behind it moves in the plane. -/
structure LiftsAfter (front : List (Block α)) (b plunge : Block α) : Prop where
  drawn : b.isDrawn = true
  lifts : b.layer = .penUp ∧ lastLayer none front ≠ some .penUp
  stays : b.segment? = none
  movesZ : plunge.movesZ = true
  behind : ∃ before after, front ++ [b] = before ++ plunge :: after ∧ (after.filter (·.movesZ)).length = 1 ∧
    ∀ d ∈ after, d.isDrawn = true → d.segment? = none

/-- What a mark says: at least two moves along Z count. -/
theorem exists_liftsAfter (hkind : marker.kind = .drill) (hmark : .mark marker ∈ strokesAt size front b) :
    ∃ plunge, LiftsAfter front b plunge := by
  obtain ⟨hdrawn, hmarks, -⟩ := (mark_mem_strokesAt hkind).mp hmark
  simp only [Tracer.marksDrill, Bool.and_eq_true, decide_eq_true_eq, beq_iff_eq, bne_iff_ne] at hmarks
  obtain ⟨⟨hcount, hlayer⟩, hup⟩ := hmarks
  rw [Tracer.layer_pass, hup] at hlayer
  have hcounts := Tracer.counts_countedWith (Tracer.counts_pass size front) hdrawn
  obtain ⟨before, plunge, after, hrun, hplunge, hafter, hnone⟩ := hcounts.exists_plunge hcount
  refine ⟨plunge, hdrawn, ⟨hup, hlayer⟩, ?_, hplunge, before, after, hrun, hafter, hnone⟩
  -- a move in the plane leaves at most itself counted
  cases hsegment : b.segment? with
  | none => rfl
  | some segment =>
      simp only [Tracer.countedWith, hsegment, Option.isSome_some, if_true, Nat.zero_add] at hcount
      split at hcount <;> omega

namespace LiftsAfter

variable {plunge : Block α}

/-- If the step that lifts the pen moves along Z, the plunge is the last move along Z before it. -/
theorem getLast?_eq (h : LiftsAfter front b plunge) (hb : b.movesZ = true) :
    (front.filter (·.movesZ)).getLast? = some plunge := by
  obtain ⟨before, after, hrun, hafter, -⟩ := h.behind
  obtain ⟨retract, hretract⟩ := List.length_eq_one_iff.mp hafter
  have hfilter := congrArg (List.filter (·.movesZ)) hrun
  rw [List.filter_append, List.filter_append, List.filter_cons_of_pos h.movesZ, hretract, List.filter_singleton, hb,
    cond_true, List.append_cons (before.filter _)] at hfilter
  rw [(List.append_inj' hfilter rfl).1]
  exact List.getLast?_concat

theorem isDrill_iff (h : LiftsAfter front b plunge) : IsDrill front b b.place.target.xy ↔
    b.movesZ = true ∧ plunge.motion.isEngaged = true ∧ plunge.StaysAt b.place.target.xy := by
  constructor
  · rintro ⟨⟨plunge', hplunge', hcuts, hstays⟩, hb, -, -⟩
    obtain rfl : plunge = plunge' := by simpa [h.getLast?_eq hb] using hplunge'
    exact ⟨hb, hcuts, hstays⟩
  · rintro ⟨hb, hcuts, hstays⟩
    exact ⟨⟨plunge, h.getLast?_eq hb, hcuts, hstays⟩, hb, h.lifts, Block.staysAt_of_segment? h.stays⟩

end LiftsAfter

/-- The pen is lifted and lowered only by steps that move the tool. -/
def LiftsByMoves (bs : List (Block α)) : Prop :=
  (bs.filter (·.isDrawn)).IsChain fun b b' => b'.layer ≠ b.layer → b'.movesZ = true ∨ b'.segment?.isSome = true

theorem LiftsByMoves.of_append {bs cs : List (Block α)} (h : LiftsByMoves (bs ++ cs)) : LiftsByMoves bs := by
  rw [LiftsByMoves, List.filter_append] at h
  exact (List.isChain_append.mp h).1

/-- Steps that do not move the tool leave the pen as it is. -/
theorem layer_eq_of_idle {d : Block α} {ds : List (Block α)}
    (h : (d :: ds).IsChain fun b b' => b'.layer ≠ b.layer → b'.movesZ = true ∨ b'.segment?.isSome = true)
    (hidle : ∀ e ∈ ds, e.movesZ = false ∧ e.segment? = none) : ∀ last ∈ (d :: ds).getLast?, last.layer = d.layer := by
  induction ds generalizing d with
  | nil =>
      intro last hlast
      obtain rfl : d = last := by simpa using hlast
      rfl
  | cons e ds ih =>
      obtain ⟨hmoves, hchain⟩ := List.isChain_cons_cons.mp h
      obtain ⟨hz, hsegment⟩ := hidle e (by simp)
      have hsame : e.layer = d.layer := by
        by_contra hne
        simpa [hz, hsegment] using hmoves hne
      intro last hlast
      rw [List.getLast?_cons_cons] at hlast
      exact (ih hchain (fun e he => hidle e (by simp [he])) last hlast).trans hsame

/-- If the pen is lifted by moves, the step that lifts it is the retract, and the plunge cuts. -/
theorem LiftsByMoves.movesZ (hmoves : LiftsByMoves (front ++ [b])) {plunge : Block α} (h : LiftsAfter front b plunge) :
    b.movesZ = true ∧ plunge.motion.isEngaged = true := by
  obtain ⟨before, after, hrun, hafter, hnone⟩ := h.behind
  obtain ⟨between, last, rfl⟩ := (List.eq_nil_or_concat' after).resolve_left fun hnil => by simp [hnil] at hafter
  rw [← List.cons_append, ← List.append_assoc] at hrun
  obtain ⟨rfl, hlast⟩ := List.append_inj' hrun rfl
  obtain rfl := List.singleton_inj.mp hlast
  have hdrawn : plunge.isDrawn = true := (Bool.and_eq_true_iff.mp h.movesZ).1
  have hfilter : (before ++ plunge :: between).filter (·.isDrawn) =
      before.filter (·.isDrawn) ++ plunge :: between.filter (·.isDrawn) := by
    rw [List.filter_append, List.filter_cons_of_pos hdrawn]
  obtain ⟨last, hmem⟩ : ∃ last, last ∈ (plunge :: between.filter (·.isDrawn)).getLast? :=
    ⟨_, List.getLast?_eq_some_getLast (by simp)⟩
  have hlast : last ∈ ((before ++ plunge :: between).filter (·.isDrawn)).getLast? := by
    rw [hfilter, List.getLast?_append_of_ne_nil _ (by simp)]
    exact hmem
  have hlayer : last.layer ≠ .penUp := by
    intro heq
    refine h.lifts.2 ?_
    rw [lastLayer, Option.mem_def.mp hlast, Option.bind_some, layerIn_of_isTraced rfl, heq]
  rw [LiftsByMoves, List.filter_append, List.filter_cons_of_pos h.drawn, List.isChain_append] at hmoves
  obtain ⟨hfront, -, hlink⟩ := hmoves
  -- the step that lifts the pen moves along Z, so that no step between it and the plunge does
  have hb : b.movesZ = true := by
    have hmoves := hlink last hlast b rfl fun heq => hlayer (heq.symm.trans h.lifts.1)
    simpa [h.stays] using hmoves
  have hnil : between.filter (·.movesZ) = [] := by
    rw [List.filter_append, List.filter_cons_of_pos hb, List.length_append] at hafter
    exact List.length_eq_zero_iff.mp (by simpa using hafter)
  refine ⟨hb, ?_⟩
  rw [hfilter] at hfront
  have hsame := layer_eq_of_idle (List.isChain_append.mp hfront).2.1 (fun e he => ?_) last hmem
  · rw [hsame, Block.layer] at hlayer
    by_contra hcuts
    exact hlayer (if_neg hcuts)
  · obtain ⟨he, hdrawn⟩ := List.mem_filter.mp he
    exact ⟨by simpa using List.filter_eq_nil_iff.mp hnil e he, hnone e (by simp [he]) hdrawn⟩

end

/-- A plunge with the pen down is followed by a retract that lifts the pen, and nothing else happens in between. -/
theorem marksDrill_pass {size : α} {front between : List (Block α)} {plunge b : Block α}
    (hplunge : plunge.movesZ = true) (hdown : plunge.layer = .penDown)
    (hbetween : ∀ d ∈ between, d.isDrawn = true → d.layer = .penDown ∧ d.segment? = none) (hb : b.movesZ = true)
    (hup : b.layer = .penUp) (hstays : b.segment? = none) :
    (pass (Tracer.step size none) .atStart (front ++ plunge :: between)).1.marksDrill b = true := by
  have hz : ∀ {d : Block α}, d.movesZ = true → d.isDrawn = true ∧ (d.place.origin.z != d.place.target.z) = true :=
    fun h => Bool.and_eq_true_iff.mp h
  have hunmarked : ∀ (t : Tracer) {d : Block α}, d.layer = .penDown → t.marksDrill d = false := by
    intro t d hd
    simp [Tracer.marksDrill, hd]
  -- the plunge counts, and goes on counting as long as the pen is down
  obtain ⟨hcount, hlayer⟩ : 0 < (pass (Tracer.step size none) .atStart (front ++ plunge :: between)).1.zMoves ∧
      (pass (Tracer.step size none) .atStart (front ++ plunge :: between)).1.layer = some .penDown := by
    rw [pass_append, pass_cons]
    refine (pass_invariant (I := fun t : Tracer => 0 < t.zMoves ∧ t.layer = some .penDown) (P := fun _ => True) ?_ ?_).1
    · obtain ⟨hdrawn, hz⟩ := hz hplunge
      rw [Tracer.step_of_isTraced hdrawn rfl, Tracer.draw_eq, hunmarked _ hdown]
      exact ⟨by simp [Tracer.countedWith, hz], by rw [hdown]⟩
    · rintro t d hd ⟨hcount, hlayer⟩
      refine ⟨?_, trivial⟩
      cases hdrawn : d.isDrawn with
      | false =>
          rw [Tracer.step_of_not_isDrawn hdrawn]
          exact ⟨hcount, hlayer⟩
      | true =>
          obtain ⟨hdown', hstays'⟩ := hbetween d hd hdrawn
          rw [Tracer.step_of_isTraced hdrawn rfl, Tracer.draw_eq, hunmarked _ hdown']
          exact ⟨by simpa [Tracer.countedWith, hstays'] using .inl hcount, by rw [hdown']⟩
  simpa [Tracer.marksDrill, Tracer.countedWith, hstays, (hz hb).2, hup, hlayer] using hcount

namespace Program

variable (p : Program α) (unit : LengthUnit)

theorem mem_markers_iff {marker : Marker α} : marker ∈ (Drawing.ofStrokes (p.strokes unit none)).markers ↔
    ∃ front b back, p.executed = front ++ b :: back ∧ .mark marker ∈ strokesAt unit.markerSize front b := by
  rw [Drawing.mem_markers_ofStrokes, strokes, List.mem_flatten]
  constructor
  · rintro ⟨told, htold, hmark⟩
    obtain ⟨front, b, back, hrun, rfl⟩ := mem_pass_iff.mp htold
    exact ⟨front, b, back, hrun, hmark⟩
  · rintro ⟨front, b, back, hrun, hmark⟩
    exact ⟨_, mem_pass_iff.mpr ⟨front, b, back, hrun, rfl⟩, hmark⟩

/-- Where the path marks a drill, the pen is lifted without a move in the plane. Of the moves along Z up to there the
last but one, the plunge, has no move in the plane behind it. The mark stands for a drill exactly if the step that lifts
the pen is the last of them, and the plunge cuts and stays at the place of the mark. The first two hold where the pen is
lifted and lowered by moves alone; a plunge that comes along a ramp, or that steps which are not drawn have left behind,
is marked all the same. No drill goes unmarked: if a plunge is followed by a step that lifts the pen and moves along Z
alone, with nothing but steps with the pen down and without a move in the plane between them, then that step is
marked. -/
theorem marks_drills :
    (∀ marker : Marker α, marker ∈ (Drawing.ofStrokes (p.strokes unit none)).markers ∧ marker.kind = .drill ↔
      ∃ front b, p.MarksDrill unit front b marker) ∧
    (∀ front b marker, p.MarksDrill unit front b marker →
      marker = ⟨b.place.target.xy, .drill, unit.markerSize⟩ ∧ ∃ plunge, LiftsAfter front b plunge ∧
        (IsDrill front b marker.position ↔
          b.movesZ = true ∧ plunge.motion.isEngaged = true ∧ plunge.StaysAt marker.position) ∧
        (LiftsByMoves p.executed → b.movesZ = true ∧ plunge.motion.isEngaged = true)) ∧
    ∀ front plunge between b back, p.executed = front ++ plunge :: (between ++ b :: back) →
      plunge.movesZ = true → plunge.layer = .penDown →
      (∀ d ∈ between, d.isDrawn = true → d.layer = .penDown ∧ d.segment? = none) →
      b.movesZ = true → b.layer = .penUp → b.segment? = none →
      p.MarksDrill unit (front ++ plunge :: between) b ⟨b.place.target.xy, .drill, unit.markerSize⟩ := by
  refine ⟨fun marker => ?_, ?_, ?_⟩
  · rw [mem_markers_iff]
    constructor
    · rintro ⟨⟨front, b, back, hrun, htold⟩, hdrill⟩
      exact ⟨front, b, ⟨back, hrun⟩, htold, hdrill⟩
    · rintro ⟨front, b, ⟨back, hrun⟩, htold, hdrill⟩
      exact ⟨⟨front, b, back, hrun, htold⟩, hdrill⟩
  · rintro front b marker ⟨⟨back, hexecuted⟩, htold, hdrill⟩
    obtain ⟨-, -, rfl⟩ := (mark_mem_strokesAt hdrill).mp htold
    obtain ⟨plunge, h⟩ := exists_liftsAfter hdrill htold
    refine ⟨rfl, plunge, h, h.isDrill_iff, fun hmoves => ?_⟩
    rw [hexecuted, List.append_cons] at hmoves
    exact hmoves.of_append.movesZ h
  · intro front plunge between b back hrun hplunge hdown hbetween hb hup hstays
    refine ⟨⟨back, by simp [hrun]⟩, (mark_mem_strokesAt rfl).mpr ⟨?_, ?_, rfl⟩, rfl⟩
    · exact (Bool.and_eq_true_iff.mp hb).1
    · exact marksDrill_pass hplunge hdown hbetween hb hup hstays

/-- A ramp down to (5, 0) is no plunge, but lifting the pen there is marked as a drill. -/
theorem marks_ramp :
    let _ := PlaneFunctions.axial
    let p := read "G1 X5 Z-1 F100\nG0 Z5\n" .default (.default : Machine ℚ)
    (Drawing.ofStrokes (p.strokes .millimeter none)).markers.map (fun m => (m.kind, m.position)) = [(.drill, ⟨5, 0⟩)] ∧
      ∀ marker ∈ (Drawing.ofStrokes (p.strokes .millimeter none)).markers, marker.kind = .drill →
        ∃ front b, p.MarksDrill .millimeter front b marker ∧ ¬IsDrill front b marker.position := by
  intro _ p
  have hramp : ∀ b ∈ p.executed, b.motion.isEngaged = true → (b.place.origin.xy == b.place.target.xy) = false := by
    decide +kernel
  refine ⟨by decide +kernel, fun marker hmarker hdrill => ?_⟩
  obtain ⟨hmarkers, hmarks, -⟩ := marks_drills p .millimeter
  obtain ⟨front, b, hmark⟩ := (hmarkers marker).mp ⟨hmarker, hdrill⟩
  refine ⟨front, b, hmark, fun hdrills => ?_⟩
  obtain ⟨-, plunge, hlifts, hiff, -⟩ := hmarks front b marker hmark
  obtain ⟨-, hcuts, -, hstays⟩ := hiff.mp hdrills
  obtain ⟨back, hexecuted⟩ := hmark.executed
  obtain ⟨before, after, hrun, -⟩ := hlifts.behind
  have hmem : plunge ∈ front ++ [b] := hrun ▸ by simp
  have hplunge : plunge ∈ p.executed := by
    rw [hexecuted, List.append_cons]
    exact List.mem_append_left back hmem
  exact absurd hstays (by rw [hramp plunge hplunge hcuts]; exact Bool.false_ne_true)

end Program

end PartProgram
