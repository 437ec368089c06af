import Mathlib.Data.List.Pairwise
import PartProgram.Proofs.Program.Flattened

/-! # Figures

What is cut between lowering the pen and lifting it is a figure. Figures are numbered in the order of
execution, and the positions of each of them stand together.
-/

namespace PartProgram

variable {α : Type}

/-! ### What the steps so far show -/

/-- The figure that was drawn last; 0 before the first one. -/
def lastFigure (bs : List (Block α)) : ℕ := (bs.filterMap (·.place.figure)).getLast?.getD 0

/-- The pen is down: the last block that can be drawn is a cut. -/
def penIsDown (bs : List (Block α)) : Bool := (bs.filter (·.isDrawable)).getLast?.any (·.motion.isEngaged)

/-- The figure of a block that comes after others: it goes on with the figure that is being cut, or it begins the
next one. -/
def Block.figureAfter (before : List (Block α)) (b : Block α) : Option ℕ :=
  if b.isDrawable && b.motion.isEngaged then
    some (if penIsDown before then lastFigure before else lastFigure before + 1)
  else none

/-- The positions of the blocks that can be drawn: where a block with coordinates ends, directly followed by the
centre of its arc. -/
def positions (bs : List (Block α)) : Coordinates α :=
  (bs.filter fun b => b.isDrawable && b.hasCoordinates).flatMap fun b =>
    ⟨b.number, b.place.figure, b.place.target.xy, false⟩ ::
      (b.place.arc.map fun arc => ⟨b.number, b.place.figure, arc.center, true⟩).toList

section

variable (bs : List (Block α)) (b : Block α)

@[simp]
theorem lastFigure_concat : lastFigure (bs ++ [b]) = b.place.figure.getD (lastFigure bs) := by
  rw [lastFigure, lastFigure, List.filterMap_append]
  cases h : b.place.figure <;> simp [h]

@[simp]
theorem penIsDown_concat : penIsDown (bs ++ [b]) = if b.isDrawable then b.motion.isEngaged else penIsDown bs := by
  rw [penIsDown, penIsDown, List.filter_append]
  cases h : b.isDrawable <;> simp [h]

theorem positions_eq : positions bs = (bs.filter (·.isDrawable)).flatMap Block.coordinates := by
  induction bs with
  | nil => rfl
  | cons b bs ih =>
      rw [positions] at ih ⊢
      cases hdrawable : b.isDrawable <;> cases hcoordinates : b.hasCoordinates <;>
        simp [Block.coordinates, hdrawable, hcoordinates, ih]

@[simp]
theorem positions_concat : positions (bs ++ [b]) = positions bs ++ if b.isDrawable then b.coordinates else [] := by
  rw [positions_eq, positions_eq, List.filter_append, List.flatMap_append]
  cases hdrawable : b.isDrawable <;> simp [hdrawable]

end

/-- Every block has the figure that it has after the blocks before it. -/
def Numbered (bs : List (Block α)) : Prop :=
  ∀ before b after, bs = before ++ b :: after → b.place.figure = b.figureAfter before

theorem numbered_nil : Numbered ([] : List (Block α)) := by
  intro before b after h
  simp at h

theorem numbered_concat {bs : List (Block α)} {b : Block α} :
    Numbered (bs ++ [b]) ↔ Numbered bs ∧ b.place.figure = b.figureAfter bs := by
  constructor
  · intro h
    refine ⟨fun before b' after heq => h before b' (after ++ [b]) ?_, h bs b [] rfl⟩
    rw [heq, List.append_assoc, List.cons_append]
  · rintro ⟨hbs, hb⟩ before b' after heq
    rcases List.eq_nil_or_concat' after with rfl | ⟨after, last, rfl⟩
    · obtain ⟨rfl, hlast⟩ := List.append_inj' heq rfl
      rw [← List.singleton_inj.mp hlast]
      exact hb
    · rw [← List.cons_append, ← List.append_assoc] at heq
      exact hbs before b' after (List.append_inj' heq rfl).1

/-! ### Steps of the tool -/

variable [Scalar α]

namespace Tool

/-- What the tool knows of figures is what the blocks so far show. -/
structure Shows (t : Tool α) (bs : List (Block α)) : Prop where
  figures : t.figures = lastFigure bs
  penDown : t.penDown = penIsDown bs
  coordinates : t.coordinates.toList = positions bs

variable (machine : Machine α) (t : Tool α) (b : Block α)

omit [Scalar α] in
theorem setPen_figures (engaged : Bool) :
    (t.setPen engaged).figures = if engaged && !t.penDown then t.figures + 1 else t.figures := by
  rw [setPen]
  split <;> rfl

@[simp]
theorem addExtent_figures : (t.addExtent b).figures = t.figures := by
  simp only [addExtent]
  split <;> split <;> rfl

/-- A cut with a lifted pen begins a figure. -/
theorem figures_step : (t.step machine b).1.figures =
    if b.isDrawable && b.motion.isEngaged && !t.penDown then t.figures + 1 else t.figures := by
  rw [step_draws, draw_step]
  cases hdrawable : b.isDrawable with
  | false => rfl
  | true => rw [if_pos rfl, addExtent_figures, setPen_figures, Bool.true_and]

/-- A cut belongs to the figure that it leaves the tool in. -/
theorem figure_step : (t.step machine b).2.place.figure =
    if b.isDrawable && b.motion.isEngaged then some (t.step machine b).1.figures else none := by
  have hdrawable : ({ b with place := b.placementFrom machine t.position } : Block α).isDrawable = b.isDrawable := rfl
  simp only [step, hdrawable]
  cases b.isDrawable with
  | false => rfl
  | true => cases hengaged : b.motion.isEngaged <;> simp

variable {t}

theorem figure_step_of_shows {bs : List (Block α)} (h : t.Shows bs) :
    (t.step machine b).2.place.figure = (t.step machine b).2.figureAfter bs := by
  have hfigure : (t.step machine b).2.figureAfter bs = b.figureAfter bs := by
    rw [eq_of_step]
    rfl
  rw [hfigure, figure_step, figures_step, Block.figureAfter, h.figures, h.penDown]
  cases b.isDrawable <;> cases b.motion.isEngaged <;> cases penIsDown bs <;> rfl

/-- A step keeps what the tool knows in line with the blocks. -/
theorem Shows.step {bs : List (Block α)} (h : t.Shows bs) :
    (t.step machine b).1.Shows (bs ++ [(t.step machine b).2]) := by
  have hdrawable : (t.step machine b).2.isDrawable = b.isDrawable := by
    rw [eq_of_step]
    rfl
  have hmotion : (t.step machine b).2.motion = b.motion := by rw [eq_of_step]
  refine ⟨?_, ?_, ?_⟩
  · rw [lastFigure_concat, figure_step]
    split
    · rfl
    · rename_i hcut
      rw [Bool.not_eq_true] at hcut
      rw [figures_step, hcut, Option.getD_none, ← h.figures]
      rfl
  · rw [penIsDown_concat, hdrawable, hmotion]
    split
    · rename_i hdrawn
      exact penDown_step machine t hdrawn
    · rename_i hdrawn
      rw [penDown_step_of_not_isDrawable machine t (by simpa using hdrawn), h.penDown]
  · rw [positions_concat, coordinates_step, h.coordinates, hdrawable]

/-- The blocks that a run has placed are numbered, and the tool shows them. -/
theorem shows_pass (bs : List (Block α)) :
    Numbered (pass (step machine) (.atStart machine) bs).2 ∧
      (pass (step machine) (.atStart machine) bs).1.Shows (pass (step machine) (.atStart machine) bs).2 := by
  have hstep : ∀ (before : List (Block α)) (t : Tool α) b, (Numbered before ∧ t.Shows before) →
      Numbered (before ++ [(t.step machine b).2]) ∧ (t.step machine b).1.Shows (before ++ [(t.step machine b).2]) :=
    fun _ _ b h => ⟨numbered_concat.mpr ⟨h.1, figure_step_of_shows machine b h.2⟩, h.2.step machine b⟩
  have hstart : Numbered ([] : List (Block α)) ∧ (atStart machine).Shows [] := ⟨numbered_nil, ⟨rfl, rfl, rfl⟩⟩
  exact pass_induction hstep [] hstart bs

end Tool

namespace Program

variable (lines : List String) (settings : Settings α) (machine : Machine α)

/-- The figures of a program that has been read, step by step and at its end, and its positions. -/
theorem numbered_ofLines :
    let p := ofLines lines settings machine
    Numbered p.executed ∧ p.figures = lastFigure p.executed ∧ p.coordinates = positions p.executed := by
  intro p
  obtain ⟨hnumbered, hshows⟩ := Tool.shows_pass machine p.executed
  have hplaced : (pass (Tool.step machine) (.atStart machine) p.executed).2 = p.executed :=
    pass_executed_ofLines lines settings machine
  rw [hplaced] at hnumbered hshows
  have hcoordinates : p.coordinates = _ := (drawn_ofLines lines settings machine).2
  have hfigures : p.figures = _ := figures_ofLines lines settings machine
  exact ⟨hnumbered, hfigures.trans hshows.figures, hcoordinates.trans hshows.coordinates⟩

end Program

/-! ### The positions of a figure -/

omit [Scalar α]

/-- Positions in front of a figure, positions of the figure, and positions after it. -/
structure Coordinates.Around (figure : ℕ) (front run back : Coordinates α) : Prop where
  front : ∀ c ∈ front, ∀ f ∈ c.figure, f < figure
  run : ∀ c ∈ run, c.figure = some figure
  back : ∀ c ∈ back, ∀ f ∈ c.figure, figure < f

namespace Coordinates.Around

variable {figure : ℕ} {front run back : Coordinates α}

theorem front_ne (h : Around figure front run back) : ∀ c ∈ front, (c.figure == some figure) = false := by
  intro c hc
  rw [beq_eq_false_iff_ne]
  exact fun hfigure => absurd (h.front c hc figure hfigure) (lt_irrefl _)

theorem back_ne (h : Around figure front run back) : ∀ c ∈ back, (c.figure == some figure) = false := by
  intro c hc
  rw [beq_eq_false_iff_ne]
  exact fun hfigure => absurd (h.back c hc figure hfigure) (lt_irrefl _)

/-- The positions of the figure are all there are. -/
theorem filter_eq (h : Around figure front run back) :
    (front ++ run ++ back).filter (·.figure == some figure) = run := by
  have hfront : front.filter (·.figure == some figure) = [] := by simpa using h.front_ne
  have hback : back.filter (·.figure == some figure) = [] := by simpa using h.back_ne
  have hrun : run.filter (·.figure == some figure) = run := by simpa using h.run
  rw [List.filter_append, List.filter_append, hfront, hrun, hback, List.nil_append, List.append_nil]

/-- The lines of a figure are those of its first and its last position. -/
theorem figureLines?_eq (h : Around figure front run back) :
    figureLines? (front ++ run ++ back) figure =
      run.head?.bind fun first => run.getLast?.map fun last => (first.line, last.line) := by
  have hdrop : (front ++ run ++ back).dropWhile (·.figure != some figure) =
      (run ++ back).dropWhile (·.figure != some figure) := by
    rw [List.append_assoc, List.dropWhile_append_of_pos]
    intro c hc
    rw [bne, h.front_ne c hc]
    rfl
  have hrun : ((run ++ back).dropWhile (·.figure != some figure)).takeWhile (·.figure == some figure) = run := by
    cases run with
    | nil =>
        have hback : back.dropWhile (·.figure != some figure) = [] := by simpa using h.back_ne
        rw [List.nil_append, hback]
        rfl
    | cons c run =>
        have hc : (c.figure != some figure) = false := by simpa using h.run c (by simp)
        have hback : back.takeWhile (·.figure == some figure) = [] := by
          rw [List.takeWhile_eq_nil_iff]
          intro hpos
          rw [h.back_ne _ (List.get_mem _ _)]
          exact Bool.false_ne_true
        rw [List.cons_append, List.dropWhile_cons_of_neg (by rw [hc]; exact Bool.false_ne_true), ← List.cons_append,
          List.takeWhile_append_of_pos (by simpa using h.run), hback, List.append_nil]
  rw [figureLines?, hdrop, hrun]
  cases run.head? with
  | none => rfl
  | some first => cases run.getLast? <;> rfl

variable {cs : Coordinates α}

theorem append_front (h : Around figure front [] []) (hcs : ∀ c ∈ cs, ∀ f ∈ c.figure, f < figure) :
    Around figure (front ++ cs) [] [] :=
  ⟨fun c hc => (List.mem_append.mp hc).elim (h.front c) (hcs c), h.run, h.back⟩

theorem append_run (h : Around figure front run []) (hcs : ∀ c ∈ cs, c.figure = some figure) :
    Around figure front (run ++ cs) [] :=
  ⟨h.front, fun c hc => (List.mem_append.mp hc).elim (h.run c) (hcs c), h.back⟩

theorem append_back (h : Around figure front run back) (hcs : ∀ c ∈ cs, ∀ f ∈ c.figure, figure < f) :
    Around figure front run (back ++ cs) :=
  ⟨h.front, h.run, fun c hc => (List.mem_append.mp hc).elim (h.back c) (hcs c)⟩

end Coordinates.Around

theorem Block.figure_of_mem_coordinates {b : Block α} {c : Coordinate α} (h : c ∈ b.coordinates) :
    c.line = b.number ∧ c.figure = b.place.figure := by
  rw [coordinates] at h
  split at h
  · rcases List.mem_cons.mp h with rfl | h
    · exact ⟨rfl, rfl⟩
    · obtain ⟨arc, -, rfl⟩ := by simpa using h
      exact ⟨rfl, rfl⟩
  · simp at h

/-- A cut belongs to the last figure, if the pen is down, or to the next one. -/
theorem Block.exists_figureAfter (before : List (Block α)) {b : Block α} (hdrawable : b.isDrawable = true)
    (hengaged : b.motion.isEngaged = true) : ∃ f, b.figureAfter before = some f ∧
      (f = lastFigure before ∧ penIsDown before = true ∨ f = lastFigure before + 1 ∧ penIsDown before = false) := by
  rw [figureAfter, hdrawable, hengaged, Bool.and_self, if_pos rfl]
  cases hpen : penIsDown before with
  | true => exact ⟨_, rfl, .inl ⟨rfl, rfl⟩⟩
  | false => exact ⟨_, rfl, .inr ⟨rfl, rfl⟩⟩

theorem Numbered.le_lastFigure {bs : List (Block α)} (h : Numbered bs) :
    ∀ b ∈ bs, ∀ f ∈ b.place.figure, f ≤ lastFigure bs := by
  induction bs using List.reverseRecOn with
  | nil => simp
  | append_singleton bs b ih =>
      obtain ⟨hbs, hfigure⟩ := numbered_concat.mp h
      have hgrows : lastFigure bs ≤ lastFigure (bs ++ [b]) := by
        rw [lastFigure_concat, hfigure, Block.figureAfter]
        split
        · split <;> simp
        · rfl
      intro b' hb' f hf
      rcases List.mem_append.mp hb' with hb' | hb'
      · exact (ih hbs b' hb' f hf).trans hgrows
      · obtain rfl := List.mem_singleton.mp hb'
        rw [lastFigure_concat, hf, Option.getD_some]

/-- The positions of numbered blocks fall into those in front of a figure, those of the figure and those after it. A
figure that has not begun has none yet, and nothing comes after one that is still being cut. -/
theorem Numbered.exists_around {bs : List (Block α)} (h : Numbered bs) (figure : ℕ) :
    ∃ front run back, positions bs = front ++ run ++ back ∧ Coordinates.Around figure front run back ∧
      (lastFigure bs < figure → run = [] ∧ back = []) ∧
      (lastFigure bs = figure → penIsDown bs = true → back = []) := by
  induction bs using List.reverseRecOn with
  | nil => exact ⟨[], [], [], rfl, ⟨by simp, by simp, by simp⟩, by simp, by simp⟩
  | append_singleton bs b ih =>
      obtain ⟨hbs, hfigure⟩ := numbered_concat.mp h
      obtain ⟨front, run, back, hpositions, haround, hunbegun, hopen⟩ := ih hbs
      have hnew : ∀ c ∈ b.coordinates, c.figure = b.figureAfter bs :=
        fun c hc => (Block.figure_of_mem_coordinates hc).2.trans hfigure
      rw [positions_concat, lastFigure_concat, penIsDown_concat, hpositions, hfigure]
      cases hdrawable : b.isDrawable with
      | false =>
          rw [Block.figureAfter, hdrawable]
          exact ⟨front, run, back, List.append_nil _, haround, hunbegun, hopen⟩
      | true =>
          cases hengaged : b.motion.isEngaged with
          | false =>
              -- The positions of a rapid move have no figure. They stay in front of a figure to come.
              have hnone : b.figureAfter bs = none := by
                rw [Block.figureAfter, hengaged, Bool.and_false]
                rfl
              have hany : ∀ {P : ℕ → Prop}, ∀ c ∈ b.coordinates, ∀ f ∈ c.figure, P f := by
                intro P c hc f hf
                simp [hnew c hc, hnone] at hf
              rw [hnone, Option.getD_none]
              by_cases hbegun : lastFigure bs < figure
              · obtain ⟨rfl, rfl⟩ := hunbegun hbegun
                exact ⟨front ++ b.coordinates, [], [], by simp, haround.append_front hany, by simp, by simp⟩
              · exact ⟨front, run, back ++ b.coordinates, by simp, haround.append_back hany,
                  fun hlast => absurd hlast hbegun, by simp⟩
          | true =>
              obtain ⟨f, hf, hcases⟩ := Block.exists_figureAfter bs hdrawable hengaged
              rw [hf] at hnew ⊢
              rw [Option.getD_some]
              rcases lt_trichotomy f figure with hlt | rfl | hgt
              · obtain ⟨rfl, rfl⟩ := hunbegun (by omega)
                refine ⟨front ++ b.coordinates, [], [], by simp, haround.append_front ?_, by simp, by simp⟩
                intro c hc g hg
                rw [hnew c hc] at hg
                exact Option.some_inj.mp hg ▸ hlt
              · have hback : back = [] := by
                  rcases hcases with ⟨hsame, hpen⟩ | ⟨hnext, -⟩
                  · exact hopen hsame.symm hpen
                  · exact (hunbegun (by omega)).2
                subst hback
                exact ⟨front, run ++ b.coordinates, [], by simp, haround.append_run hnew,
                  fun hlast => absurd hlast (lt_irrefl _), by simp⟩
              · refine ⟨front, run, back ++ b.coordinates, by simp, haround.append_back ?_, by omega, by omega⟩
                intro c hc g hg
                rw [hnew c hc] at hg
                exact Option.some_inj.mp hg ▸ hgt

/-! ### Positions in the order of the lines -/

/-- The second position is not on an earlier line, and on one line both have the same figure. -/
def Coordinate.Precedes (c c' : Coordinate α) : Prop := c.line ≤ c'.line ∧ (c.line = c'.line → c.figure = c'.figure)

/-- The positions of blocks that stand in the order of their lines. -/
theorem pairwise_positions {bs : List (Block α)} (h : bs.Pairwise (·.number < ·.number)) :
    (positions bs).Pairwise Coordinate.Precedes := by
  rw [positions_eq, List.pairwise_flatMap]
  refine ⟨fun b _ => List.pairwise_of_forall_mem_list fun c hc c' hc' => ?_,
    (h.filter _).imp fun {b b'} hlt c hc c' hc' => ?_⟩
  · obtain ⟨hline, hfigure⟩ := Block.figure_of_mem_coordinates hc
    obtain ⟨hline', hfigure'⟩ := Block.figure_of_mem_coordinates hc'
    exact ⟨(hline.trans hline'.symm).le, fun _ => hfigure.trans hfigure'.symm⟩
  · obtain ⟨hline, -⟩ := Block.figure_of_mem_coordinates hc
    obtain ⟨hline', -⟩ := Block.figure_of_mem_coordinates hc'
    exact ⟨by omega, fun hsame => by omega⟩

namespace Coordinates.Around

variable {figure first last : ℕ} {front run back : Coordinates α}

/-- The lines of a figure are the lines of two of its positions. -/
theorem exists_of_figureLines? (h : Around figure front run back)
    (hlines : figureLines? (front ++ run ++ back) figure = some (first, last)) :
    ∃ c rest, run = c :: rest ∧ c.line = first ∧ ∃ c' ∈ run, c'.line = last := by
  rw [h.figureLines?_eq] at hlines
  cases run with
  | nil => simp at hlines
  | cons c rest =>
      obtain ⟨c', hc', heq⟩ : ∃ c', (c :: rest).getLast? = some c' ∧ (c.line, c'.line) = (first, last) := by
        simpa using hlines
      obtain ⟨hfirst, hlast⟩ := Prod.mk.inj heq
      exact ⟨c, rest, rfl, hfirst, c', List.mem_of_getLast? hc', hlast⟩

theorem first_le_last (h : Around figure front run back)
    (hordered : (front ++ run ++ back).Pairwise Coordinate.Precedes)
    (hlines : figureLines? (front ++ run ++ back) figure = some (first, last)) : first ≤ last := by
  obtain ⟨c, rest, rfl, rfl, c', hc', rfl⟩ := h.exists_of_figureLines? hlines
  have hrun := (List.pairwise_append.mp (List.pairwise_append.mp hordered).1).2.1
  rcases List.mem_cons.mp hc' with rfl | hc'
  · exact le_rfl
  · exact ((List.pairwise_cons.mp hrun).1 c' hc').1

/-- A position of a later figure is on a later line. -/
theorem last_lt (h : Around figure front run back) (hordered : (front ++ run ++ back).Pairwise Coordinate.Precedes)
    (hlines : figureLines? (front ++ run ++ back) figure = some (first, last)) {c : Coordinate α}
    (hc : c ∈ front ++ run ++ back) {f : ℕ} (hfigure : c.figure = some f) (hlater : figure < f) : last < c.line := by
  obtain ⟨-, -, -, -, c', hc', rfl⟩ := h.exists_of_figureLines? hlines
  have hback : c ∈ back := by
    rcases List.mem_append.mp hc with hc | hback
    · rcases List.mem_append.mp hc with hfront | hrun
      · exact absurd (h.front c hfront f hfigure) (by omega)
      · rw [h.run c hrun, Option.some_inj] at hfigure
        omega
    · exact hback
  obtain ⟨hle, hsame⟩ := (List.pairwise_append.mp hordered).2.2 c' (List.mem_append_right _ hc') c hback
  refine lt_of_le_of_ne hle fun hline => ?_
  rw [← hsame hline, h.run c' hc', Option.some_inj] at hfigure
  omega

end Coordinates.Around

namespace Program

variable [Scalar α]

/-- Without calls the steps are the lines, in their order. -/
theorem pairwise_number {lines : List String} {settings : Settings α} {machine : Machine α}
    (h : ∀ b ∈ (ofLines lines settings machine).lines, b.call = none) :
    (ofLines lines settings machine).executed.Pairwise (·.number < ·.number) := by
  rw [(isStraight_ofLines (codes_of_call_eq_none h) machine).executed_eq, List.pairwise_iff_getElem]
  intro n m hn hm hlt
  rw [number_of_mem_lines (List.getElem?_eq_getElem hn), number_of_mem_lines (List.getElem?_eq_getElem hm)]
  exact hlt

/-- Figures and positions agree. A step has a figure exactly if it is a cut that can be drawn: the figure that is
being cut, or the next one after the pen was up. The positions are those of the steps in the order of execution. Those
of one figure stand together, after those of the figures before it, so that the first and the last of them give
the lines of the figure. Without calls the lines of figures increase with their numbers. -/
theorem figures_agree (lines : List String) (settings : Settings α) (machine : Machine α) :
    let p := ofLines lines settings machine
    let ofFigure := fun f => p.coordinates.filter (·.figure == some f)
    (∀ before b after, p.executed = before ++ b :: after → b.place.figure =
        if b.isDrawable && b.motion.isEngaged then
          some (if penIsDown before then lastFigure before else lastFigure before + 1)
        else none) ∧
      p.figures = lastFigure p.executed ∧
      p.coordinates = (p.executed.filter fun b => b.isDrawable && b.hasCoordinates).flatMap (fun b =>
        ⟨b.number, b.place.figure, b.place.target.xy, false⟩ ::
          (b.place.arc.map fun arc => ⟨b.number, b.place.figure, arc.center, true⟩).toList) ∧
      (∀ f, (∃ front back, p.coordinates = front ++ ofFigure f ++ back ∧
          (∀ c ∈ front, ∀ g ∈ c.figure, g < f) ∧ ∀ c ∈ back, ∀ g ∈ c.figure, f < g) ∧
        ((p.coordinates.figureLines? f).isSome = true ↔ ∃ c ∈ p.coordinates, c.figure = some f) ∧
        p.coordinates.figureLines? f =
          (ofFigure f).head?.bind fun first => (ofFigure f).getLast?.map fun last => (first.line, last.line)) ∧
      ((∀ b ∈ p.lines, b.call = none) →
        (∀ f first last, p.coordinates.figureLines? f = some (first, last) → first ≤ last) ∧
        ∀ f g first last first' last', f < g → p.coordinates.figureLines? f = some (first, last) →
          p.coordinates.figureLines? g = some (first', last') → last < first') := by
  intro p ofFigure
  obtain ⟨hnumbered, hfigures, hcoordinates⟩ : Numbered p.executed ∧ p.figures = lastFigure p.executed ∧
    p.coordinates = positions p.executed := numbered_ofLines lines settings machine
  have haround : ∀ f, ∃ front run back, p.coordinates = front ++ run ++ back ∧ Coordinates.Around f front run back := by
    intro f
    obtain ⟨front, run, back, hpositions, haround, -, -⟩ := hnumbered.exists_around f
    exact ⟨front, run, back, hcoordinates.trans hpositions, haround⟩
  refine ⟨hnumbered, hfigures, hcoordinates, ?_, ?_⟩
  · intro f
    obtain ⟨front, run, back, hparts, hf⟩ := haround f
    have hrun : ofFigure f = run := by
      change p.coordinates.filter _ = run
      rw [hparts, hf.filter_eq]
    have hlines := hf.figureLines?_eq
    rw [← hparts, ← hrun] at hlines
    refine ⟨⟨front, back, by rw [hrun, hparts], hf.front, hf.back⟩, ?_, hlines⟩
    rw [hlines]
    constructor
    · intro hsome
      obtain ⟨c, hc⟩ := List.exists_mem_of_ne_nil (ofFigure f) fun hnil => by simp [hnil] at hsome
      obtain ⟨hc, hfigure⟩ := List.mem_filter.mp hc
      exact ⟨c, hc, by simpa using hfigure⟩
    · rintro ⟨c, hc, hfigure⟩
      have hmem : c ∈ ofFigure f := List.mem_filter.mpr ⟨hc, by simp [hfigure]⟩
      obtain ⟨first, rest, heq⟩ := List.exists_cons_of_ne_nil (List.ne_nil_of_mem hmem)
      simp [heq]
  · intro hcalls
    have hordered : p.coordinates.Pairwise Coordinate.Precedes :=
      hcoordinates ▸ pairwise_positions (pairwise_number hcalls)
    refine ⟨fun f first last hlines => ?_, fun f g first last first' last' hlt hlines hlines' => ?_⟩
    · obtain ⟨front, run, back, hparts, hf⟩ := haround f
      rw [hparts] at hordered hlines
      exact hf.first_le_last hordered hlines
    · obtain ⟨front, run, back, hparts, hf⟩ := haround f
      obtain ⟨front', run', back', hparts', hg⟩ := haround g
      rw [hparts'] at hlines'
      obtain ⟨c, rest, rfl, rfl, -⟩ := hg.exists_of_figureLines? hlines'
      have hc : c ∈ p.coordinates := by simp [hparts']
      rw [hparts] at hordered hlines hc
      exact hf.last_lt hordered hlines hc (hg.run c (by simp)) hlt

/-- Two figures. A move in machine coordinates does not end the first one, and a line without coordinates does not
begin the second. -/
theorem figures_agree_of_two :
    let _ := PlaneFunctions.axial
    let p := read "G0 X1\nG1 X2 F100\nG53 G0 X9\nG2 X4 I1\nG0 X0\nS5\nG1 X3\nX5\n" .default (.default : Machine ℚ)
    ((∀ b ∈ p.lines, b.call = none) ∧ p.coordinates.length = 7) ∧ p.coordinates.figureLines? 1 = some (1, 3) ∧
      p.coordinates.figureLines? 2 = some (6, 7) ∧ 3 < 6 := by
  intro _ p
  have hcalls : ∀ b ∈ p.lines, b.call = none := by decide +kernel
  have hfirst : p.coordinates.figureLines? 1 = some (1, 3) := by decide +kernel
  have hsecond : p.coordinates.figureLines? 2 = some (6, 7) := by decide +kernel
  obtain ⟨-, -, -, -, hincreasing⟩ := figures_agree _ .default (.default : Machine ℚ)
  exact ⟨⟨hcalls, by decide +kernel⟩, hfirst, hsecond,
    (hincreasing hcalls).2 1 2 1 3 6 7 (by decide) hfirst hsecond⟩

end Program

end PartProgram
