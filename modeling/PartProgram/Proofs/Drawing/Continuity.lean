import PartProgram.Proofs.Drawing.Contours

/-! # Contours and the tool

Within a contour each step is drawn from where the step before it ended. That is where the tool is, unless
a step in between has been skipped that moves it. Such steps are hidden or run in machine coordinates.
-/

namespace PartProgram

/-! ### Neighbours -/

section

variable {β : Type} {R : β → β → Prop} {xs : List β}

/-- Neighbours within runs are neighbours that go together. -/
theorem forall_splitBy_isChain_iff {r : β → β → Bool} :
    (∀ run ∈ xs.splitBy r, run.IsChain R) ↔ xs.IsChain fun x y => r x y = true → R x y := by
  have hflatten := List.isChain_flatten (R := fun x y => r x y = true → R x y) (List.nil_notMem_splitBy r xs)
  rw [List.flatten_splitBy] at hflatten
  rw [hflatten]
  constructor
  · intro h
    refine ⟨fun run hrun => (h run hrun).imp fun _ _ hR _ => hR, ?_⟩
    refine (List.isChain_getLast_head_splitBy r xs).imp fun run run' hbreak x hx y hy hrel => ?_
    obtain ⟨hne, hne', hbreak⟩ := hbreak
    rw [List.getLast_of_mem_getLast? hx, List.head_of_mem_head? hy, hrel] at hbreak
    contradiction
  · rintro ⟨h, -⟩ run hrun
    have hrel := List.isChain_iff_forall_rel_of_append_cons_cons.mp (List.isChain_of_mem_splitBy hrun)
    have himp := List.isChain_iff_forall_rel_of_append_cons_cons.mp (h run hrun)
    exact List.isChain_iff_forall_rel_of_append_cons_cons.mpr fun x y _ _ heq => himp heq (hrel heq)

/-- Neighbours in what is left of a list have nothing but left out elements between them. -/
theorem isChain_filter_iff {p : β → Bool} : (xs.filter p).IsChain R ↔
    ∀ front x between y back, xs = front ++ x :: (between ++ y :: back) → p x = true → p y = true →
      (∀ z ∈ between, p z = false) → R x y := by
  rw [List.isChain_iff_forall_rel_of_append_cons_cons]
  constructor
  · intro h front x between y back heq hx hy hbetween
    have hnone : between.filter p = [] := by simpa using hbetween
    have hneighbours : xs.filter p = front.filter p ++ x :: y :: back.filter p := by
      rw [heq, List.filter_append, List.filter_cons_of_pos hx, List.filter_append, hnone, List.filter_cons_of_pos hy,
        List.nil_append]
    exact h hneighbours
  · intro h x y l₁ l₂ heq
    obtain ⟨front, rest, rfl, -, hrest⟩ := List.filter_eq_append_iff.mp heq
    obtain ⟨skipped, rest, rfl, -, hx, hrest⟩ := List.filter_eq_cons_iff.mp hrest
    obtain ⟨between, back, rfl, hbetween, hy, -⟩ := List.filter_eq_cons_iff.mp hrest
    exact h (front ++ skipped) x between y back (by simp) hx hy (by simpa using hbetween)

end

variable {α : Type}

/-- Blocks on one layer go together. -/
theorem tracedRuns_none_eq (bs : List (Block α)) :
    tracedRuns none bs = (bs.filter (·.isDrawn)).splitBy fun b b' => b.layer == b'.layer := by
  have hlayer : ∀ b : Block α, b.layerIn none = some b.layer := fun _ => rfl
  rw [tracedRuns, List.filter_eq_self.mpr]
  · simp [hlayer]
  · intro run hrun
    obtain ⟨b, hb⟩ := List.exists_mem_of_ne_nil run (List.ne_nil_of_mem_splitBy hrun)
    exact List.any_eq_true.mpr ⟨b, hb, rfl⟩

deriving instance DecidableEq for Segment, Contour

variable [Scalar α]

namespace Program

section

variable {lines : List String} {settings : Settings α} {machine : Machine α} {front back : List (Block α)}
  {b : Block α}

/-- A step starts where the step before it ends. -/
theorem origin_eq_of_executed_eq {last : Block α}
    (h : (ofLines lines settings machine).executed = front ++ last :: b :: back) :
    b.place.origin = last.place.target := by
  have hplaced := pass_executed_ofLines lines settings machine
  simp only [h, pass_append, pass_cons] at hplaced
  obtain ⟨-, hrest⟩ := List.append_inj hplaced (by simp)
  obtain ⟨hlast, hrest⟩ := List.cons.inj hrest
  obtain ⟨hb, -⟩ := List.cons.inj hrest
  rw [← hb, Tool.step_origin, Tool.step_position, ← Tool.step_target, hlast]

variable {skipped : List (Block α)} {b' : Block α}

/-- Where a drawn step starts: it has the tool from the last skipped step before it, or else from the last drawn one. -/
theorem xy_eq_origin_iff (h : (ofLines lines settings machine).executed = front ++ b :: (skipped ++ b' :: back)) :
    b.place.target.xy = b'.place.origin.xy ↔ ∀ s ∈ skipped.getLast?, s.place.target.xy = b.place.target.xy := by
  rcases List.eq_nil_or_concat' skipped with rfl | ⟨skipped, last, rfl⟩
  · simp [origin_eq_of_executed_eq h]
  · have hlast : (ofLines lines settings machine).executed = (front ++ b :: skipped) ++ last :: b' :: back :=
      h.trans (by simp)
    simp [origin_eq_of_executed_eq hlast, eq_comm]

/-- Between two drawn steps only hidden steps and steps in machine coordinates are skipped. -/
theorem hides_of_not_isDrawn (h : (ofLines lines settings machine).executed = front ++ b :: (skipped ++ b' :: back))
    (hb : b.isDrawn = true) (hb' : b'.isDrawn = true) {s : Block α} (hs : s ∈ skipped) (hskipped : s.isDrawn = false) :
    s.machineFrame = true ∨ s.hidden = true := by
  have hends := pairwise_afterEnd lines settings machine
  have hkeeps : KeepsMotion _ := keepsMotion_ofLines lines settings machine
  rw [KeepsMotion, h, List.pairwise_append, List.pairwise_cons] at hkeeps
  rw [h, List.pairwise_append, List.pairwise_cons, List.pairwise_append] at hends
  simp only [Block.isDrawn, Block.isDrawable, Bool.and_eq_true, Bool.not_eq_true', Bool.or_eq_false_iff,
    bne_iff_ne] at hb hb'
  have hset : s.motion ≠ .unset := hkeeps.2.1.1 s (by simp [hs]) hb.2
  have hbefore : s.afterEnd = false := by
    by_contra hend
    have hend' := hends.2.1.2.2.2 s hs b' (by simp) (by simpa using hend)
    rw [hb'.1.2] at hend'
    contradiction
  simp only [Block.isDrawn, Block.isDrawable, hbefore, Bool.or_false, bne_iff_ne.mpr hset, Bool.and_true,
    Bool.not_eq_false', Bool.or_eq_true] at hskipped
  exact hskipped

end

/-- The path is drawn in runs of drawn steps on one layer, a contour for each. A contour starts where its first step
does. Every further step is drawn from where the tool is exactly if what is skipped between drawn steps of one layer
leads back to where it began. All that can be skipped there is hidden or runs in machine coordinates. -/
theorem contours_follow_iff (lines : List String) (settings : Settings α) (machine : Machine α) (unit : LengthUnit) :
    let p := ofLines lines settings machine
    let runs := (p.executed.filter (·.isDrawn)).splitBy fun b b' => b.layer == b'.layer
    (Drawing.ofStrokes (p.strokes unit none)).contours = runs.map Contour.ofRun ∧
      ((∀ run ∈ runs, run.IsChain fun b b' => b.place.target.xy = b'.place.origin.xy) ↔
        ∀ front b skipped b' back, p.executed = front ++ b :: (skipped ++ b' :: back) →
          b.isDrawn = true → b'.isDrawn = true → (∀ s ∈ skipped, s.isDrawn = false) → b.layer = b'.layer →
          ∀ s ∈ skipped.getLast?, s.place.target.xy = b.place.target.xy) ∧
      ∀ front b skipped b' back, p.executed = front ++ b :: (skipped ++ b' :: back) →
        b.isDrawn = true → b'.isDrawn = true → (∀ s ∈ skipped, s.isDrawn = false) →
        ∀ s ∈ skipped, s.machineFrame = true ∨ s.hidden = true := by
  intro p runs
  have hruns : runs = tracedRuns none p.executed := (tracedRuns_none_eq _).symm
  refine ⟨by rw [hruns, contours_strokes], ?_, ?_⟩
  · rw [forall_splitBy_isChain_iff, isChain_filter_iff]
    constructor
    · intro h front b skipped b' back heq hb hb' hskipped hlayer
      exact (xy_eq_origin_iff heq).mp (h front b skipped b' back heq hb hb' hskipped (beq_iff_eq.mpr hlayer))
    · intro h front b skipped b' back heq hb hb' hskipped hlayer
      exact (xy_eq_origin_iff heq).mpr (h front b skipped b' back heq hb hb' hskipped (eq_of_beq hlayer))
  · intro front b skipped b' back heq hb hb' hskipped s hs
    exact hides_of_not_isDrawn heq hb hb' hs (hskipped s hs)

/-- A move in machine coordinates takes the tool from (10, 0) to (10, 20). The next step is drawn from (10, 0). -/
theorem contours_leave_tool :
    let _ := PlaneFunctions.axial
    let p := read "G0 X10 Y0\nG53 G0 Y20\nG0 X20\n" .default (.default : Machine ℚ)
    let runs := (p.executed.filter (·.isDrawn)).splitBy fun b b' => b.layer == b'.layer
    (Drawing.ofStrokes (p.strokes .millimeter none)).contours =
        [⟨.penUp, [.moveTo ⟨0, 0⟩, .lineTo ⟨10, 0⟩, .lineTo ⟨20, 20⟩]⟩] ∧
      p.executed.map (fun b => (b.place.origin.xy, b.place.target.xy)) =
        [(⟨0, 0⟩, ⟨10, 0⟩), (⟨10, 0⟩, ⟨10, 20⟩), (⟨10, 20⟩, ⟨20, 20⟩)] ∧
      ¬(∀ run ∈ runs, run.IsChain fun b b' => b.place.target.xy = b'.place.origin.xy) ∧
      ¬(∀ front b skipped b' back, p.executed = front ++ b :: (skipped ++ b' :: back) →
          b.isDrawn = true → b'.isDrawn = true → (∀ s ∈ skipped, s.isDrawn = false) → b.layer = b'.layer →
          ∀ s ∈ skipped.getLast?, s.place.target.xy = b.place.target.xy) := by
  intro _ p runs
  obtain ⟨hcontours, hfollows, -⟩ := contours_follow_iff _ .default (.default : Machine ℚ) .millimeter
  have hleaves : ¬(∀ run ∈ runs, run.IsChain fun b b' => b.place.target.xy = b'.place.origin.xy) := by decide +kernel
  refine ⟨hcontours.trans ?_, by decide +kernel, hleaves, fun h => hleaves (hfollows.mpr h)⟩
  decide +kernel

end Program

end PartProgram
