import Mathlib.Data.List.SplitBy
import PartProgram.Drawing.Trace
import PartProgram.Proofs.Program.Drawable

/-! # Contours of a path

The drawing of a path has one contour for each run of steps that are drawn on one layer. What is skipped
between two of them leaves the contour open, also where it moves the tool.
-/

namespace PartProgram

/-! ### Runs of a list -/

section

variable {β : Type} {r : β → β → Bool} {front : List (List β)} {run xs : List β} {x : β}

/-- One more element that goes with the last one. -/
theorem splitBy_concat_of_rel (h : xs.splitBy r = front ++ [run]) (hrel : ∀ y ∈ run.getLast?, r y x = true) :
    (xs ++ [x]).splitBy r = front ++ [run ++ [x]] := by
  obtain ⟨rfl, hnil, hchains, hbreaks⟩ := List.splitBy_eq_iff.mp h
  obtain ⟨hfront, -, hlast⟩ := List.isChain_append.mp hbreaks
  refine List.splitBy_eq_iff.mpr ⟨by simp, ?_, ?_, ?_⟩
  · intro hmem
    rcases List.mem_append.mp hmem with hmem | hmem
    · exact hnil (List.mem_append_left _ hmem)
    · simp at hmem
  · intro run' hmem
    rcases List.mem_append.mp hmem with hmem | hmem
    · exact hchains run' (List.mem_append_left _ hmem)
    · rw [List.mem_singleton.mp hmem, List.isChain_append]
      exact ⟨hchains run (by simp), .singleton x, by simpa using hrel⟩
  · refine List.isChain_append.mpr ⟨hfront, .singleton _, fun a ha b hb => ?_⟩
    obtain rfl : run ++ [x] = b := by simpa using hb
    obtain ⟨hne, hne', hbreak⟩ := hlast a ha run rfl
    exact ⟨hne, by simp, by rwa [List.head_append_of_ne_nil hne']⟩

/-- The last element is in the last run. -/
theorem exists_splitBy_eq_concat (r : β → β → Bool) (h : x ∈ xs.getLast?) :
    ∃ front run, xs.splitBy r = front ++ [run] ∧ x ∈ run.getLast? := by
  have hflatten := List.flatten_splitBy r xs
  rcases List.eq_nil_or_concat' (xs.splitBy r) with hnil | ⟨front, run, hruns⟩
  · rw [List.splitBy_eq_nil.mp hnil] at h
    simp at h
  · have hrun : run ≠ [] := List.ne_nil_of_mem_splitBy (r := r) (l := xs) (by simp [hruns])
    refine ⟨front, run, hruns, ?_⟩
    rw [hruns, List.flatten_append, List.flatten_singleton] at hflatten
    rwa [← hflatten, List.getLast?_append_of_ne_nil _ hrun] at h

/-- What the elements of a run have in common. -/
theorem eq_of_mem_splitBy {γ : Type} [BEq γ] [LawfulBEq γ] {f : β → γ} {y : β}
    (h : run ∈ xs.splitBy fun x y => f x == f y) (hx : x ∈ run) (hy : y ∈ run) : f x = f y := by
  have hchain : run.IsChain fun x y => f x = f y :=
    (List.isChain_of_mem_splitBy h).imp fun x y hxy => eq_of_beq hxy
  have : Trans (fun x y => f x = f y) (fun x y => f x = f y) (fun x y => f x = f y) := ⟨Eq.trans⟩
  have : Std.Symm fun x y => f x = f y := ⟨fun _ _ => Eq.symm⟩
  exact List.Pairwise.forall_of_forall (R := fun x y => f x = f y) (fun _ _ => rfl)
    (List.isChain_iff_pairwise.mp hchain) hx hy

end

variable {α : Type}

/-! ### Strokes on a canvas -/

namespace Canvas

/-- The contours on the canvas. If there are any, the last one is still being drawn. -/
structure Shows (c : Canvas α) (drawn : List (Contour α)) : Prop where
  contours : c.contours.toList = drawn
  current : c.current = none → drawn = []

theorem shows_empty : ({} : Canvas α).Shows [] := ⟨rfl, fun _ => rfl⟩

namespace Shows

variable {c : Canvas α} {drawn : List (Contour α)}

theorem start (h : c.Shows drawn) (layer : Layer) : (c.add (.start layer)).Shows (drawn ++ [⟨layer, []⟩]) where
  contours := by
    rw [← h.contours]
    simp [add, Canvas.contours]
  current := by simp [add]

/-- A segment goes to the contour that is being drawn. -/
theorem draw {layer : Layer} {segments : List (Segment α)} (h : c.Shows (drawn ++ [⟨layer, segments⟩]))
    (segment : Segment α) : (c.add (.draw segment)).Shows (drawn ++ [⟨layer, segments ++ [segment]⟩]) := by
  have hcontours := h.contours
  cases hcurrent : c.current with
  | none => exact absurd (h.current hcurrent) (by simp)
  | some current =>
      simp only [Canvas.contours, hcurrent, Array.toList_push] at hcontours
      obtain ⟨hfinished, hlast⟩ := List.append_inj' hcontours rfl
      obtain ⟨rfl, rfl⟩ := Contour.mk.inj (List.singleton_inj.mp hlast)
      exact ⟨by simp [add, Canvas.contours, hcurrent, hfinished], by simp [add]⟩

theorem draw? {layer : Layer} {segments : List (Segment α)} (h : c.Shows (drawn ++ [⟨layer, segments⟩]))
    (segment? : Option (Segment α)) : ((segment?.map Stroke.draw).toList.foldl add c).Shows
      (drawn ++ [⟨layer, segments ++ segment?.toList⟩]) := by
  cases segment? with
  | none => simpa using h
  | some segment => exact h.draw segment

theorem mark? (h : c.Shows drawn) (marks : Bool) (marker : Marker α) :
    ((if marks then [Stroke.mark marker] else []).foldl add c).Shows drawn := by
  cases marks with
  | false => exact h
  | true => exact ⟨h.contours, h.current⟩

end Shows

end Canvas

/-! ### Runs of blocks -/

namespace Block

/-- The block is drawn in the path: it can be, and a motion has been selected. -/
def isDrawn (b : Block α) : Bool := b.isDrawable && b.motion != .unset

/-- The layer of the block in the drawing of the path or of one figure, if it is not left out. -/
def layerIn (only : Option ℕ) (b : Block α) : Option Layer := if b.isTraced only then some b.layer else none

end Block

/-- The runs of the drawn blocks on one layer, without those that are left out. -/
def tracedRuns (only : Option ℕ) (bs : List (Block α)) : List (List (Block α)) :=
  ((bs.filter (·.isDrawn)).splitBy fun b b' => b.layerIn only == b'.layerIn only).filter
    (·.any (·.isTraced only))

/-- The layer of the block that was drawn last, unless it was left out. -/
def lastLayer (only : Option ℕ) (bs : List (Block α)) : Option Layer :=
  (bs.filter (·.isDrawn)).getLast?.bind (·.layerIn only)

section

variable {only : Option ℕ} {bs : List (Block α)} {b : Block α}

theorem lastLayer_concat : lastLayer only (bs ++ [b]) = if b.isDrawn then b.layerIn only else lastLayer only bs := by
  rw [lastLayer, lastLayer, List.filter_append]
  cases hdrawn : b.isDrawn <;> simp [hdrawn]

theorem layerIn_of_isTraced (h : b.isTraced only = true) : b.layerIn only = some b.layer := by
  rw [Block.layerIn, h]
  rfl

/-- Of blocks on one layer all are left out or none. -/
theorem any_isTraced {run : List (Block α)} (hrun : run ≠ []) (h : ∀ b' ∈ run, b'.layerIn only = b.layerIn only) :
    run.any (·.isTraced only) = b.isTraced only := by
  have hsame : ∀ b' ∈ run, b'.isTraced only = b.isTraced only := by
    intro b' hb'
    have hlayer := h b' hb'
    simp only [Block.layerIn] at hlayer
    cases htraced : b'.isTraced only <;> cases htraced' : b.isTraced only <;> simp [htraced, htraced'] at hlayer ⊢
  cases htraced : b.isTraced only with
  | false => exact List.any_eq_false.mpr fun b' hb' => by simp [hsame b' hb', htraced]
  | true =>
      obtain ⟨b', hb'⟩ := List.exists_mem_of_ne_nil run hrun
      exact List.any_eq_true.mpr ⟨b', hb', (hsame b' hb').trans htraced⟩

/-- A drawn block on another layer than the one before it begins a run, unless it is left out. -/
theorem tracedRuns_concat_of_break (hdrawn : b.isDrawn = true)
    (h : ∀ last ∈ (bs.filter (·.isDrawn)).getLast?, last.layerIn only ≠ b.layerIn only) :
    tracedRuns only (bs ++ [b]) = tracedRuns only bs ++ if b.isTraced only then [[b]] else [] := by
  have hbreaks : ∀ last ∈ (bs.filter (·.isDrawn)).getLast?, (last.layerIn only == b.layerIn only) = false :=
    fun last hlast => beq_eq_false_iff_ne.mpr (h last hlast)
  have hnew : [b].filter (·.isDrawn) = [b] := by simp [hdrawn]
  have hone : [b].splitBy (fun b b' => b.layerIn only == b'.layerIn only) = [[b]] := rfl
  rw [tracedRuns, tracedRuns, List.filter_append, hnew, List.splitBy_append_cons [] hbreaks, hone, List.filter_append]
  cases htraced : b.isTraced only <;> simp [htraced]

/-- A drawn block on the layer of the one before it goes on with the run of that one. -/
theorem exists_tracedRuns_concat (hdrawn : b.isDrawn = true) {last : Block α}
    (hlast : last ∈ (bs.filter (·.isDrawn)).getLast?) (h : last.layerIn only = b.layerIn only) :
    ∃ front run, tracedRuns only bs = front ++ (if b.isTraced only then [run] else []) ∧ run ≠ [] ∧
      (∀ b' ∈ run, b'.layerIn only = b.layerIn only) ∧
      tracedRuns only (bs ++ [b]) = front ++ (if b.isTraced only then [run ++ [b]] else []) := by
  obtain ⟨front, run, hruns, hrun⟩ := exists_splitBy_eq_concat (fun b b' => b.layerIn only == b'.layerIn only) hlast
  have hnew : [b].filter (·.isDrawn) = [b] := by simp [hdrawn]
  have hmem : run ∈ (bs.filter (·.isDrawn)).splitBy fun b b' => b.layerIn only == b'.layerIn only := by simp [hruns]
  have hsame : ∀ b' ∈ run, b'.layerIn only = b.layerIn only :=
    fun b' hb' => (eq_of_mem_splitBy hmem hb' (List.mem_of_getLast? hrun)).trans h
  have hne : run ≠ [] := List.ne_nil_of_mem_splitBy hmem
  have hsame' : ∀ b' ∈ run ++ [b], b'.layerIn only = b.layerIn only := by
    intro b' hb'
    rcases List.mem_append.mp hb' with hb' | hb'
    · exact hsame b' hb'
    · rw [List.mem_singleton.mp hb']
  have hmore := splitBy_concat_of_rel (x := b) hruns fun y hy => by
    rw [hsame y (List.mem_of_getLast? hy), BEq.rfl]
  refine ⟨front.filter (·.any (·.isTraced only)), run, ?_, hne, hsame, ?_⟩
  · rw [tracedRuns, hruns, List.filter_append, List.filter_singleton, any_isTraced hne hsame,
      Bool.cond_eq_ite]
  · rw [tracedRuns, List.filter_append, hnew, hmore, List.filter_append, List.filter_singleton,
      any_isTraced (by simp) hsame', Bool.cond_eq_ite]

/-- A block that is not drawn, or is left out, adds nothing to the runs. -/
theorem tracedRuns_concat_of_not (h : b.isDrawn = true → b.isTraced only = false) :
    tracedRuns only (bs ++ [b]) = tracedRuns only bs := by
  cases hdrawn : b.isDrawn with
  | false => simp [tracedRuns, List.filter_append, hdrawn]
  | true =>
      have htraced := h hdrawn
      by_cases hlast : ∃ last ∈ (bs.filter (·.isDrawn)).getLast?, last.layerIn only = b.layerIn only
      · obtain ⟨last, hlast, hsame⟩ := hlast
        obtain ⟨front, run, hruns, -, -, hruns'⟩ := exists_tracedRuns_concat hdrawn hlast hsame
        rw [hruns, hruns', htraced]
        rfl
      · rw [tracedRuns_concat_of_break hdrawn fun last hmem hsame => hlast ⟨last, hmem, hsame⟩, htraced]
        exact List.append_nil _

/-- A traced block on the layer that was drawn on last goes on with the last run. -/
theorem tracedRuns_concat_of_eq (hdrawn : b.isDrawn = true) (htraced : b.isTraced only = true)
    (h : lastLayer only bs = some b.layer) :
    ∃ front run, tracedRuns only bs = front ++ [run] ∧ run ≠ [] ∧ (∀ b' ∈ run, b'.layer = b.layer) ∧
      tracedRuns only (bs ++ [b]) = front ++ [run ++ [b]] := by
  obtain ⟨last, hlast, hlayer⟩ := Option.bind_eq_some_iff.mp h
  obtain ⟨front, run, hruns, hne, hsame, hruns'⟩ :=
    exists_tracedRuns_concat hdrawn hlast (hlayer.trans (layerIn_of_isTraced htraced).symm)
  rw [if_pos htraced] at hruns hruns'
  refine ⟨front, run, hruns, hne, fun b' hb' => ?_, hruns'⟩
  have hlayer' := hsame b' hb'
  rw [layerIn_of_isTraced htraced, Block.layerIn] at hlayer'
  split at hlayer'
  · exact Option.some_inj.mp hlayer'
  · simp at hlayer'

/-- Any other traced block begins a run. -/
theorem tracedRuns_concat_of_ne (hdrawn : b.isDrawn = true) (htraced : b.isTraced only = true)
    (h : lastLayer only bs ≠ some b.layer) : tracedRuns only (bs ++ [b]) = tracedRuns only bs ++ [[b]] := by
  rw [tracedRuns_concat_of_break hdrawn, if_pos htraced]
  intro last hlast hsame
  refine h ?_
  rw [lastLayer, Option.mem_def.mp hlast, Option.bind_some, hsame, layerIn_of_isTraced htraced]

end

/-- Once a motion has been selected, every block has one. -/
def KeepsMotion (bs : List (Block α)) : Prop := bs.Pairwise fun b b' => b.motion ≠ .unset → b'.motion ≠ .unset

variable [Scalar α]

theorem Modal.motion_after_ne {m : Modal α} (h : m.motion ≠ .unset) (line : String) :
    (m.after line).motion ≠ .unset := by
  intro hunset
  change Word.latest (Word.motion? α) m.motion (wordsOf line) = .unset at hunset
  rcases Word.latest_eq_or (f := Word.motion? α) (v := m.motion) (wordsOf line) with hkept | ⟨w, -, hw⟩
  · exact h (hkept.symm.trans hunset)
  · rw [hunset] at hw
    exact Word.motion?_ne_unset w hw

theorem Source.keepsMotion_pass_readAt (s : Source) (m : Modal α) (ns : List ℕ) :
    KeepsMotion (pass s.readAt m ns).2 ∧
      (m.motion ≠ .unset → ∀ b ∈ (pass s.readAt m ns).2, b.motion ≠ .unset) := by
  induction ns generalizing m with
  | nil => exact ⟨.nil, by simp⟩
  | cons n ns ih =>
      obtain ⟨hkeeps, hset⟩ := ih (m.after (s.lines.getD n ""))
      have hmotion : (s.readAt m n).2.motion = (m.after (s.lines.getD n "")).motion := by
        rw [readAt, Block.read_snd]
      have hmodal : (s.readAt m n).1 = m.after (s.lines.getD n "") := by rw [readAt, Block.read_fst]
      rw [pass_cons, hmodal, KeepsMotion, List.pairwise_cons]
      refine ⟨⟨fun b hb h => hset (hmotion ▸ h) b hb, hkeeps⟩, fun h b hb => ?_⟩
      have hafter := Modal.motion_after_ne h (s.lines.getD n "")
      rcases List.mem_cons.mp hb with rfl | hb
      · rwa [hmotion]
      · exact hset hafter b hb

theorem Program.keepsMotion_ofLines (lines : List String) (settings : Settings α) (machine : Machine α) :
    KeepsMotion (ofLines lines settings machine).executed := by
  obtain ⟨hread, -⟩ := executed_ofLines lines settings machine
  obtain ⟨hkeeps, -⟩ := Source.keepsMotion_pass_readAt (Source.ofLines α lines settings.calls settings.markers)
    (Modal.initial : Modal α) (((Source.ofLines α lines settings.calls settings.markers).order α).map Prod.snd)
  rw [← hread, KeepsMotion, List.pairwise_map] at hkeeps
  exact hkeeps

/-! ### Tracing a run -/

/-- The contour of a run of blocks: it starts where the first of them does. -/
def Contour.ofRun : List (Block α) → Contour α
  | [] => ⟨.penUp, []⟩
  | b :: bs => ⟨b.layer, .moveTo b.place.origin.xy :: (b :: bs).filterMap Block.segment?⟩

theorem Contour.ofRun_concat {run : List (Block α)} (h : run ≠ []) (b : Block α) :
    ofRun (run ++ [b]) = ⟨(ofRun run).layer, (ofRun run).segments ++ b.segment?.toList⟩ := by
  obtain ⟨first, rest, rfl⟩ := List.exists_cons_of_ne_nil h
  have hsegment : [b].filterMap Block.segment? = b.segment?.toList := by
    cases hb : b.segment? <;> simp [hb]
  simp only [ofRun, List.cons_append]
  rw [← List.cons_append, List.filterMap_append, hsegment]

theorem Contour.layer_ofRun {run : List (Block α)} (h : run ≠ []) {layer : Layer} (hlayer : ∀ b ∈ run, b.layer = layer) :
    (ofRun run).layer = layer := by
  obtain ⟨first, rest, rfl⟩ := List.exists_cons_of_ne_nil h
  exact hlayer first (by simp)

namespace Tracer

variable {size : α} {only : Option ℕ} {t : Tracer} {b : Block α}

omit [Scalar α] in
theorem not_isDrawn (b : Block α) : (!b.isDrawable || b.motion == .unset) = !b.isDrawn := by
  rw [Block.isDrawn, Bool.not_and, bne, Bool.not_not]

theorem step_of_not_isDrawn (h : b.isDrawn = false) : t.step size only b = ({ t with inBody := b.inlined }, []) := by
  simp only [step, not_isDrawn, h, Bool.not_false, if_true]

theorem step_of_not_isTraced (hdrawn : b.isDrawn = true) (htraced : b.isTraced only = false) :
    t.step size only b = ({ t with inBody := b.inlined, layer := none }, []) := by
  simp only [step, not_isDrawn, hdrawn, htraced, Bool.not_true, Bool.false_eq_true, if_false]

theorem step_of_isTraced (hdrawn : b.isDrawn = true) (htraced : b.isTraced only = true) :
    t.step size only b = { t with inBody := b.inlined }.draw size (b.inlined && !t.inBody) b := by
  simp only [step, not_isDrawn, hdrawn, htraced, Bool.not_true, Bool.false_eq_true, if_false, if_true]

variable {entering : Bool} {c : Canvas α} {drawn : List (Contour α)}

/-- A block on the layer of the contour that is being drawn adds its segment. -/
theorem shows_draw_of_eq {contour : Contour α} (h : c.Shows (drawn ++ [contour])) (hlayer : t.layer = some b.layer) :
    ((t.draw size entering b).2.foldl Canvas.add c).Shows
      (drawn ++ [⟨contour.layer, contour.segments ++ b.segment?.toList⟩]) := by
  have hsame : (t.layer != some b.layer) = false := by rw [hlayer, bne_self_eq_false]
  simp only [draw, hsame, List.foldl_append]
  exact ((h.mark? _ _).draw? _).mark? _ _

/-- Any other block starts a contour. -/
theorem shows_draw_of_ne (h : c.Shows drawn) (hlayer : t.layer ≠ some b.layer) :
    ((t.draw size entering b).2.foldl Canvas.add c).Shows (drawn ++ [.ofRun [b]]) := by
  have hchanges : (t.layer != some b.layer) = true := bne_iff_ne.mpr hlayer
  have hrun : Contour.ofRun [b] = ⟨b.layer, [.moveTo b.place.origin.xy] ++ b.segment?.toList⟩ := by
    cases hsegment : b.segment? <;> simp [Contour.ofRun, hsegment]
  simp only [draw, hchanges, if_true, List.foldl_append, hrun]
  exact (((h.mark? _ _).start _).draw _ |>.draw? _).mark? _ _

variable (size only) in
/-- The drawing of a run of blocks shows a contour for each of its runs on one layer. -/
theorem shows_pass (bs : List (Block α)) :
    let traced := pass (step size only) atStart bs
    traced.1.layer = lastLayer only bs ∧
      (traced.2.flatten.foldl Canvas.add {}).Shows ((tracedRuns only bs).map Contour.ofRun) := by
  induction bs using List.reverseRecOn with
  | nil => exact ⟨rfl, Canvas.shows_empty⟩
  | append_singleton bs b ih =>
      obtain ⟨hlayer, hshows⟩ := ih
      simp only [pass_append, pass_cons, pass_nil, List.flatten_append, List.flatten_singleton, List.foldl_append,
        lastLayer_concat]
      cases hdrawn : b.isDrawn with
      | false =>
          rw [step_of_not_isDrawn hdrawn, tracedRuns_concat_of_not fun h => by simp [hdrawn] at h]
          exact ⟨hlayer, hshows⟩
      | true =>
          cases htraced : b.isTraced only with
          | false =>
              rw [step_of_not_isTraced hdrawn htraced, tracedRuns_concat_of_not fun _ => htraced]
              exact ⟨by rw [if_pos rfl, Block.layerIn, htraced]; rfl, hshows⟩
          | true =>
              rw [step_of_isTraced hdrawn htraced, if_pos rfl, layerIn_of_isTraced htraced]
              refine ⟨rfl, ?_⟩
              by_cases hsame : lastLayer only bs = some b.layer
              · obtain ⟨front, run, hruns, hne, -, hruns'⟩ := tracedRuns_concat_of_eq hdrawn htraced hsame
                rw [hruns, List.map_append] at hshows
                rw [hruns', List.map_append, List.map_singleton, Contour.ofRun_concat hne]
                exact shows_draw_of_eq hshows (hlayer.trans hsame)
              · rw [tracedRuns_concat_of_ne hdrawn htraced hsame, List.map_append]
                exact shows_draw_of_ne hshows fun h => hsame (hlayer.symm.trans h)

end Tracer

namespace Program

/-- The drawing of a path, or of one figure of it, has a contour for each run of drawn steps on one layer. -/
theorem contours_strokes (p : Program α) (unit : LengthUnit) (only : Option ℕ) :
    (Drawing.ofStrokes (p.strokes unit only)).contours = (tracedRuns only p.executed).map Contour.ofRun :=
  (Tracer.shows_pass unit.markerSize only p.executed).2.contours

end Program

end PartProgram
