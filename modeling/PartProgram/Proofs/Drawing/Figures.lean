import PartProgram.Proofs.Drawing.Contours
import PartProgram.Proofs.Program.Figures

/-! # Contours and figures

The figures of a program and the contours of its path for the lowered pen are cut at the same places. A step
without a motion is not drawn and lifts the pen, but before it no motion has been selected, so the pen is up.
-/

namespace PartProgram

variable {α : Type}

/-- The blocks of a figure. -/
def figureBlocks (figure : ℕ) (bs : List (Block α)) : List (Block α) := bs.filter (·.place.figure == some figure)

section

variable {bs : List (Block α)} {b : Block α}

theorem figureBlocks_concat (figure : ℕ) : figureBlocks figure (bs ++ [b]) =
    figureBlocks figure bs ++ if b.place.figure = some figure then [b] else [] := by
  rw [figureBlocks, figureBlocks, List.filter_append, List.filter_singleton, Bool.cond_eq_ite]
  simp

theorem figureBlocks_concat_of_ne {figure : ℕ} (h : b.place.figure ≠ some figure) :
    figureBlocks figure (bs ++ [b]) = figureBlocks figure bs := by
  rw [figureBlocks_concat, if_neg h, List.append_nil]

/-- A figure that has not begun has no blocks. -/
theorem Numbered.figureBlocks_eq_nil (h : Numbered bs) {figure : ℕ} (hfigure : lastFigure bs < figure) :
    figureBlocks figure bs = [] := by
  refine List.filter_eq_nil_iff.mpr fun b hb heq => ?_
  exact absurd (h.le_lastFigure b hb figure (by simpa using heq)) (by omega)

/-- The pen is up until a motion has been selected. -/
theorem KeepsMotion.penIsDown_eq_false (h : KeepsMotion (bs ++ [b])) (hunset : b.motion = .unset) :
    penIsDown bs = false := by
  have hall : ∀ b' ∈ bs, b'.motion = .unset := by
    intro b' hb'
    by_contra hset
    exact (List.pairwise_append.mp h).2.2 b' hb' b (by simp) hset hunset
  rw [penIsDown]
  cases hlast : (bs.filter (·.isDrawable)).getLast? with
  | none => rfl
  | some last =>
      rw [Option.any_some, hall last (List.mem_of_mem_filter (List.mem_of_getLast? hlast))]
      rfl

/-- A block that comes after others: it is not drawn and leaves the pen alone, it moves with the pen up, or it cuts, as
part of the last figure or of the next one. -/
theorem Numbered.cases_concat (h : Numbered (bs ++ [b])) (hkeeps : KeepsMotion (bs ++ [b])) :
    (b.isDrawn = false ∧ b.place.figure = none ∧ penIsDown (bs ++ [b]) = penIsDown bs) ∨
      (b.isDrawn = true ∧ b.layer = .penUp ∧ b.place.figure = none ∧ penIsDown (bs ++ [b]) = false) ∨
      (b.isDrawn = true ∧ b.layer = .penDown ∧ penIsDown (bs ++ [b]) = true ∧ ∃ f, b.place.figure = some f ∧
        (f = lastFigure bs ∧ penIsDown bs = true ∨ f = lastFigure bs + 1 ∧ penIsDown bs = false)) := by
  obtain ⟨hbs, hfigure⟩ := numbered_concat.mp h
  rw [hfigure, penIsDown_concat]
  cases hdrawable : b.isDrawable with
  | false => exact .inl ⟨by simp [Block.isDrawn, hdrawable], by simp [Block.figureAfter, hdrawable], rfl⟩
  | true =>
      rw [if_pos rfl]
      by_cases hset : b.motion = .unset
      · refine .inl ⟨by simp [Block.isDrawn, hset], by simp [Block.figureAfter, hset, Motion.isEngaged], ?_⟩
        rw [hset, hkeeps.penIsDown_eq_false hset]
        rfl
      · have hdrawn : b.isDrawn = true := by simp [Block.isDrawn, hdrawable, hset]
        cases hengaged : b.motion.isEngaged with
        | false =>
            exact .inr (.inl ⟨hdrawn, by simp [Block.layer, hengaged], by simp [Block.figureAfter, hengaged], rfl⟩)
        | true =>
            exact .inr (.inr ⟨hdrawn, by simp [Block.layer, hengaged], rfl,
              Block.exists_figureAfter bs hdrawable hengaged⟩)

theorem KeepsMotion.init (h : KeepsMotion (bs ++ [b])) : KeepsMotion bs := (List.pairwise_append.mp h).1

end

/-! ### The runs of a figure -/

/-- A cut of a figure goes on with the only run of the figure, or begins it. -/
theorem tracedRuns_concat_of_figure {bs : List (Block α)} {b : Block α} {f : ℕ} (h : Numbered bs)
    (hdrawn : b.isDrawn = true) (hdown : b.layer = .penDown) (hfigure : b.place.figure = some f)
    (hcases : f = lastFigure bs ∧ penIsDown bs = true ∨ f = lastFigure bs + 1 ∧ penIsDown bs = false)
    (hlayer : lastLayer (some f) bs = some .penDown ↔ lastFigure bs = f ∧ penIsDown bs = true)
    (hruns : tracedRuns (some f) bs = [figureBlocks f bs].filter (· ≠ [])) :
    tracedRuns (some f) (bs ++ [b]) = [figureBlocks f bs ++ [b]] := by
  have hin : b.isTraced (some f) = true := beq_iff_eq.mpr hfigure
  rcases hcases with ⟨hlast, hcut⟩ | ⟨hnext, -⟩
  · have hgoes : lastLayer (some f) bs = some b.layer := hdown ▸ hlayer.mpr ⟨hlast.symm, hcut⟩
    obtain ⟨front, run, hfront, -, -, hruns'⟩ := tracedRuns_concat_of_eq hdrawn hin hgoes
    have hblocks : figureBlocks f bs ≠ [] := fun hnil => by simp [hruns, hnil] at hfront
    have hone : [] ++ [figureBlocks f bs] = front ++ [run] := by simpa [hruns, hblocks] using hfront
    obtain ⟨hnil, hrun⟩ := List.append_inj' hone rfl
    rw [hruns', ← hnil, ← List.singleton_inj.mp hrun, List.nil_append]
  · have hbegins : lastLayer (some f) bs ≠ some b.layer := by
      rw [hdown]
      intro hgoes
      have hlast := (hlayer.mp hgoes).1
      omega
    rw [tracedRuns_concat_of_ne hdrawn hin hbegins, hruns, h.figureBlocks_eq_nil (by omega)]
    rfl

/-- The drawing of a figure has one run: the blocks of the figure. -/
theorem tracedRuns_some {bs : List (Block α)} (h : Numbered bs) (hkeeps : KeepsMotion bs) (figure : ℕ) :
    (lastLayer (some figure) bs = some .penDown ↔ lastFigure bs = figure ∧ penIsDown bs = true) ∧
      tracedRuns (some figure) bs = [figureBlocks figure bs].filter (· ≠ []) := by
  induction bs using List.reverseRecOn with
  | nil => exact ⟨by simp [lastLayer, penIsDown], rfl⟩
  | append_singleton bs b ih =>
      have hbs := (numbered_concat.mp h).1
      obtain ⟨hlayer, hruns⟩ := ih hbs hkeeps.init
      have htraced : b.isTraced (some figure) = (b.place.figure == some figure) := rfl
      rw [lastLayer_concat, lastFigure_concat]
      rcases h.cases_concat hkeeps with ⟨hdrawn, hfigure, hpen⟩ | ⟨hdrawn, -, hfigure, hpen⟩ |
        ⟨hdrawn, hdown, hpen, f, hfigure, hcases⟩
      · rw [tracedRuns_concat_of_not fun hd => by simp [hdrawn] at hd, figureBlocks_concat_of_ne (by simp [hfigure]),
          hdrawn, hfigure, hpen]
        exact ⟨hlayer, hruns⟩
      · have hout : b.isTraced (some figure) = false := by simp [htraced, hfigure]
        rw [tracedRuns_concat_of_not fun _ => hout, figureBlocks_concat_of_ne (by simp [hfigure]), hpen, hdrawn,
          Block.layerIn, hout]
        exact ⟨by simp, hruns⟩
      · rw [hfigure, Option.getD_some, hpen, hdrawn, if_pos rfl, Block.layerIn, htraced, hfigure]
        by_cases hsame : f = figure
        · subst hsame
          rw [tracedRuns_concat_of_figure hbs hdrawn hdown hfigure hcases hlayer hruns, figureBlocks_concat,
            if_pos hfigure]
          exact ⟨by simp [hdown], by simp⟩
        · have hout : b.isTraced (some figure) = false := by simp [htraced, hfigure, hsame]
          rw [tracedRuns_concat_of_not fun _ => hout, figureBlocks_concat_of_ne (by simp [hfigure, hsame])]
          exact ⟨by simp [hsame], hruns⟩

/-- The figures so far, when a cut is added to one of them. -/
theorem map_figureBlocks_concat {bs : List (Block α)} {b : Block α} {k : ℕ} (hfigure : b.place.figure = some (k + 1)) :
    ((List.range (k + 1)).map fun n => figureBlocks (n + 1) (bs ++ [b])) =
      ((List.range k).map fun n => figureBlocks (n + 1) bs) ++ [figureBlocks (k + 1) bs ++ [b]] := by
  rw [List.range_succ, List.map_append, List.map_singleton, figureBlocks_concat, if_pos hfigure]
  congr 1
  refine List.map_congr_left fun n hn => figureBlocks_concat_of_ne ?_
  have hlt := List.mem_range.mp hn
  rw [hfigure, ne_eq, Option.some_inj]
  omega

variable [Scalar α]

/-- A run of cuts. -/
def isCutRun (run : List (Block α)) : Bool := (Contour.ofRun run).layer == .penDown

theorem isCutRun_concat {run : List (Block α)} (hne : run ≠ []) (b : Block α) :
    isCutRun (run ++ [b]) = isCutRun run := by
  rw [isCutRun, Contour.ofRun_concat hne]
  rfl

theorem isCutRun_eq {run : List (Block α)} (hne : run ≠ []) {layer : Layer} (h : ∀ b ∈ run, b.layer = layer) :
    isCutRun run = (layer == .penDown) := by
  rw [isCutRun, Contour.layer_ofRun hne h]

/-- The runs of cuts in the drawing of the path. -/
def cutRuns (bs : List (Block α)) : List (List (Block α)) := (tracedRuns none bs).filter isCutRun

section

variable {bs : List (Block α)} {b : Block α} (hdrawn : b.isDrawn = true)

include hdrawn

/-- A move with the pen up is part of no run of cuts. -/
theorem cutRuns_concat_of_penUp (hup : b.layer = .penUp) : cutRuns (bs ++ [b]) = cutRuns bs := by
  rw [cutRuns, cutRuns]
  by_cases hgoes : lastLayer none bs = some b.layer
  · obtain ⟨front, run, hfront, hne, hall, hruns⟩ := tracedRuns_concat_of_eq hdrawn rfl hgoes
    have hrun : isCutRun run = false := by
      rw [isCutRun_eq hne hall, hup]
      rfl
    rw [hruns, hfront, List.filter_append, List.filter_append, List.filter_singleton, List.filter_singleton,
      isCutRun_concat hne, hrun]
    rfl
  · have hrun : isCutRun [b] = false := by
      rw [isCutRun, Contour.ofRun, hup]
      rfl
    rw [tracedRuns_concat_of_ne hdrawn rfl hgoes, List.filter_append, List.filter_singleton, hrun]
    exact List.append_nil _

variable (hdown : b.layer = .penDown)

include hdown

/-- A cut after a cut goes on with the last run. -/
theorem cutRuns_concat_of_eq (h : lastLayer none bs = some .penDown) :
    ∃ front run, cutRuns bs = front ++ [run] ∧ cutRuns (bs ++ [b]) = front ++ [run ++ [b]] := by
  obtain ⟨front, run, hfront, hne, hall, hruns⟩ := tracedRuns_concat_of_eq hdrawn rfl (hdown ▸ h)
  have hrun : isCutRun run = true := by
    rw [isCutRun_eq hne hall, hdown]
    rfl
  refine ⟨front.filter isCutRun, run, ?_, ?_⟩
  · rw [cutRuns, hfront, List.filter_append, List.filter_singleton, hrun]
    rfl
  · rw [cutRuns, hruns, List.filter_append, List.filter_singleton, isCutRun_concat hne, hrun]
    rfl

/-- Any other cut begins a run. -/
theorem cutRuns_concat_of_ne (h : lastLayer none bs ≠ some .penDown) : cutRuns (bs ++ [b]) = cutRuns bs ++ [[b]] := by
  have hrun : isCutRun [b] = true := by
    rw [isCutRun, Contour.ofRun, hdown]
    rfl
  rw [cutRuns, tracedRuns_concat_of_ne hdrawn rfl (hdown ▸ h), List.filter_append, List.filter_singleton, hrun]
  rfl

end

/-- The runs of cuts are the figures. -/
theorem cutRuns_eq {bs : List (Block α)} (h : Numbered bs) (hkeeps : KeepsMotion bs) :
    (lastLayer none bs = some .penDown ↔ penIsDown bs = true) ∧
      cutRuns bs = (List.range (lastFigure bs)).map fun n => figureBlocks (n + 1) bs := by
  induction bs using List.reverseRecOn with
  | nil => exact ⟨by simp [lastLayer, penIsDown], rfl⟩
  | append_singleton bs b ih =>
      obtain ⟨hlayer, hruns⟩ := ih (numbered_concat.mp h).1 hkeeps.init
      have hothers : b.place.figure = none → cutRuns bs =
          (List.range (lastFigure bs)).map fun n => figureBlocks (n + 1) (bs ++ [b]) := fun hfigure =>
        hruns.trans (List.map_congr_left fun n _ => (figureBlocks_concat_of_ne (by simp [hfigure])).symm)
      rw [lastLayer_concat, lastFigure_concat, layerIn_of_isTraced rfl]
      rcases h.cases_concat hkeeps with ⟨hdrawn, hfigure, hpen⟩ | ⟨hdrawn, hup, hfigure, hpen⟩ |
        ⟨hdrawn, hdown, hpen, f, hfigure, hcases⟩
      · have hsame : cutRuns (bs ++ [b]) = cutRuns bs := by
          rw [cutRuns, tracedRuns_concat_of_not fun hd => by simp [hdrawn] at hd, cutRuns]
        rw [hsame, hdrawn, hfigure, hpen]
        exact ⟨hlayer, hothers hfigure⟩
      · rw [cutRuns_concat_of_penUp hdrawn hup, hdrawn, hup, hfigure, hpen]
        exact ⟨by simp, hothers hfigure⟩
      · rw [hdrawn, if_pos rfl, hdown, hpen, hfigure, Option.getD_some]
        refine ⟨by simp, ?_⟩
        rcases hcases with ⟨rfl, hcut⟩ | ⟨rfl, hup⟩
        · obtain ⟨front, run, hfront, hruns'⟩ := cutRuns_concat_of_eq hdrawn hdown (hlayer.mpr hcut)
          rw [hfront] at hruns
          -- The run that goes on is the last one, and so is the figure.
          cases hlast : lastFigure bs with
          | zero => simp [hlast] at hruns
          | succ k =>
              rw [hlast, List.range_succ, List.map_append, List.map_singleton] at hruns
              obtain ⟨hbefore, hblocks⟩ := List.append_inj' hruns rfl
              rw [hruns', map_figureBlocks_concat (by rw [hfigure, hlast]), hbefore, List.singleton_inj.mp hblocks]
        · have hbegins : lastLayer none bs ≠ some .penDown := by
            rw [ne_eq, hlayer, hup]
            exact Bool.false_ne_true
          have hblocks : figureBlocks (lastFigure bs + 1) bs = [] :=
            (numbered_concat.mp h).1.figureBlocks_eq_nil (Nat.lt_succ_self _)
          rw [cutRuns_concat_of_ne hdrawn hdown hbegins, hruns, map_figureBlocks_concat hfigure, hblocks]
          rfl

namespace Program

/-- The contours of the lowered pen are the figures: in order and segment for segment, they are what is drawn of each
figure, and each figure has exactly one. -/
theorem figures_partition (lines : List String) (settings : Settings α) (machine : Machine α) (unit : LengthUnit) :
    let p := ofLines lines settings machine
    let figure := fun n => (Drawing.ofStrokes (p.strokes unit (some n))).contours
    (Drawing.ofStrokes (p.strokes unit none)).onLayer .penDown =
        (List.range p.figures).flatMap (fun n => figure (n + 1)) ∧
      ∀ n < p.figures, ∃ segments, figure (n + 1) = [⟨.penDown, segments⟩] := by
  intro p figure
  obtain ⟨hnumbered, hfigures, -⟩ : Numbered p.executed ∧ p.figures = lastFigure p.executed ∧ _ :=
    numbered_ofLines lines settings machine
  have hkeeps : KeepsMotion p.executed := keepsMotion_ofLines lines settings machine
  obtain ⟨-, hcuts⟩ := cutRuns_eq hnumbered hkeeps
  have hfigure : ∀ n < p.figures, isCutRun (figureBlocks (n + 1) p.executed) = true ∧
      figure (n + 1) = [Contour.ofRun (figureBlocks (n + 1) p.executed)] := by
    intro n hn
    have hmem : figureBlocks (n + 1) p.executed ∈ cutRuns p.executed := by
      rw [hcuts, ← hfigures]
      exact List.mem_map_of_mem (f := fun n => figureBlocks (n + 1) p.executed) (List.mem_range.mpr hn)
    obtain ⟨hrun, hcut⟩ := List.mem_filter.mp hmem
    have hne : figureBlocks (n + 1) p.executed ≠ [] := List.ne_nil_of_mem_splitBy (List.mem_of_mem_filter hrun)
    have hcontours : figure (n + 1) = _ := contours_strokes p unit (some (n + 1))
    rw [(tracedRuns_some hnumbered hkeeps (n + 1)).2] at hcontours
    exact ⟨hcut, hcontours.trans (by simp [hne])⟩
  constructor
  · rw [Drawing.onLayer, contours_strokes, List.filter_map]
    change (cutRuns p.executed).map _ = _
    rw [hcuts, List.map_map, ← hfigures, List.map_eq_flatMap]
    exact List.flatMap_congr fun n hn => (hfigure n (List.mem_range.mp hn)).2.symm
  · intro n hn
    obtain ⟨hcut, heq⟩ := hfigure n hn
    refine ⟨(Contour.ofRun (figureBlocks (n + 1) p.executed)).segments, heq.trans ?_⟩
    have hlayer : (Contour.ofRun (figureBlocks (n + 1) p.executed)).layer = .penDown := eq_of_beq hcut
    rw [← hlayer]

end Program

end PartProgram
