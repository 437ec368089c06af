import PartProgram.Proofs.Drawing.Figures
import PartProgram.Query

/-! # Questions about figures

Whether there is a figure is asked in two places. A drawing of it goes by the number of figures, its lines go by
the positions of the program. A figure whose steps have no coordinates is counted and has no position.
-/

namespace PartProgram

variable {α : Type}

/-! ### Figures and their steps -/

/-- The figures of numbered blocks are those from the first to the last. When the pen is down there is one. -/
theorem Numbered.figureBlocks_ne_nil_iff {bs : List (Block α)} (h : Numbered bs) :
    (penIsDown bs = true → 0 < lastFigure bs) ∧
      ∀ figure, figureBlocks figure bs ≠ [] ↔ 0 < figure ∧ figure ≤ lastFigure bs := by
  induction bs using List.reverseRecOn with
  | nil =>
      refine ⟨by simp [penIsDown], fun figure => ?_⟩
      simpa [figureBlocks, lastFigure] using Nat.ne_of_gt
  | append_singleton bs b ih =>
      obtain ⟨hbs, hfigure⟩ := numbered_concat.mp h
      obtain ⟨hpositive, hblocks⟩ := ih hbs
      rw [lastFigure_concat, penIsDown_concat]
      cases hdrawable : b.isDrawable with
      | false =>
          have hnone : b.place.figure = none := by rw [hfigure, Block.figureAfter, hdrawable]; rfl
          refine ⟨by simpa [hnone] using hpositive, fun figure => ?_⟩
          rw [figureBlocks_concat_of_ne (by simp [hnone]), hblocks, hnone, Option.getD_none]
      | true =>
          cases hengaged : b.motion.isEngaged with
          | false =>
              have hnone : b.place.figure = none := by rw [hfigure, Block.figureAfter, hengaged, Bool.and_false]; rfl
              refine ⟨by simp, fun figure => ?_⟩
              rw [figureBlocks_concat_of_ne (by simp [hnone]), hblocks, hnone, Option.getD_none]
          | true =>
              obtain ⟨f, hf, hcases⟩ := Block.exists_figureAfter bs hdrawable hengaged
              rw [← hfigure] at hf
              have hbegun : 0 < f := by
                rcases hcases with ⟨rfl, hpen⟩ | ⟨rfl, -⟩
                · exact hpositive hpen
                · exact Nat.succ_pos _
              rw [hf, Option.getD_some]
              refine ⟨fun _ => hbegun, fun figure => ?_⟩
              by_cases hsame : figure = f
              · simp [figureBlocks_concat, hf, hsame, hbegun]
              · rw [figureBlocks_concat_of_ne (by simp [hf, Ne.symm hsame]), hblocks]
                rcases hcases with ⟨rfl, -⟩ | ⟨rfl, -⟩ <;> omega

/-- A block of a figure is drawn. -/
theorem Numbered.isDrawable_of_figure {bs : List (Block α)} (h : Numbered bs) {b : Block α} (hb : b ∈ bs) {f : ℕ}
    (hfigure : b.place.figure = some f) : b.isDrawable = true := by
  obtain ⟨before, after, rfl⟩ := List.append_of_mem hb
  by_contra hhidden
  rw [Bool.not_eq_true] at hhidden
  rw [h before b after rfl, Block.figureAfter, hhidden] at hfigure
  simp at hfigure

/-- The lines of a figure are found if it has a position. -/
theorem Coordinates.isSome_figureLines?_iff (cs : Coordinates α) (figure : ℕ) :
    (cs.figureLines? figure).isSome = true ↔ ∃ c ∈ cs, c.figure = some figure := by
  simp only [figureLines?]
  cases hrest : cs.dropWhile (·.figure != some figure) with
  | nil =>
      have hnone := List.dropWhile_eq_nil_iff.mp hrest
      simp only [bne_iff_ne] at hnone
      simpa using hnone
  | cons c rest =>
      have hc : c.figure = some figure := by
        have hhead := List.head?_dropWhile_not (fun c : Coordinate α => c.figure != some figure) cs
        simpa [hrest] using hhead
      have hmem : c ∈ cs := (List.dropWhile_sublist _).subset (hrest ▸ List.mem_cons_self)
      rw [List.takeWhile_cons_of_pos (by simp [hc])]
      simp only [List.head?_cons, List.getLast?_cons, Option.isSome_some, true_iff]
      exact ⟨c, hmem, hc⟩

/-- A figure has a position if one of its steps has a coordinate. -/
theorem Numbered.exists_position_iff {bs : List (Block α)} (h : Numbered bs) (figure : ℕ) :
    (∃ c ∈ positions bs, c.figure = some figure) ↔ ∃ b ∈ figureBlocks figure bs, b.hasCoordinates = true := by
  rw [positions_eq]
  constructor
  · rintro ⟨c, hc, hfigure⟩
    obtain ⟨b, hb, hc⟩ := List.mem_flatMap.mp hc
    have hsame := (Block.figure_of_mem_coordinates hc).2
    refine ⟨b, List.mem_filter.mpr ⟨List.mem_of_mem_filter hb, by simp [← hsame, hfigure]⟩, ?_⟩
    by_contra hnone
    simp [Block.coordinates, hnone] at hc
  · rintro ⟨b, hb, hcoordinates⟩
    obtain ⟨hb, hfigure⟩ := List.mem_filter.mp hb
    rw [beq_iff_eq] at hfigure
    have hdrawn : b ∈ bs.filter (·.isDrawable) := List.mem_filter.mpr ⟨hb, h.isDrawable_of_figure hb hfigure⟩
    refine ⟨⟨b.number, b.place.figure, b.place.target.xy, false⟩, List.mem_flatMap.mpr ⟨b, hdrawn, ?_⟩, hfigure⟩
    rw [Block.coordinates, if_pos hcoordinates]
    exact List.mem_cons_self

/-! ### The two answers -/

namespace Session

variable [Scalar α]

/-- A figure can be drawn if it has steps. Its lines can be told if, besides, one of its steps has a coordinate. -/
theorem figure_queries_agree_iff (s : Session α) (text : String) (figure : ℕ) (map : Option (HeightMap α)) :
    let s := s.load text
    let steps := s.program.executed.filter (·.place.figure == some figure)
    ((s.queryTrace (some figure) map).isOk = true ↔ steps ≠ []) ∧
      ((s.queryFigure figure).isOk = true ↔
        (s.queryTrace (some figure) map).isOk = true ∧ ∃ b ∈ steps, b.hasCoordinates = true) := by
  intro loaded steps
  obtain ⟨hnumbered, hfigures, hcoordinates⟩ : Numbered loaded.program.executed ∧
      loaded.program.figures = lastFigure loaded.program.executed ∧
      loaded.program.coordinates = positions loaded.program.executed :=
    Program.numbered_ofLines (Text.lines text) s.settings s.machine
  have htrace : (loaded.queryTrace (some figure) map).isOk = true ↔ steps ≠ [] := by
    have hsteps : steps ≠ [] ↔ _ := hnumbered.figureBlocks_ne_nil_iff.2 figure
    rw [hsteps, ← hfigures, queryTrace]
    split
    · exact iff_of_false Bool.false_ne_true (by omega)
    · exact iff_of_true rfl (by omega)
  have hlines : (loaded.queryFigure figure).isOk = true ↔ ∃ b ∈ steps, b.hasCoordinates = true := by
    have hposition : _ ↔ ∃ b ∈ steps, b.hasCoordinates = true := hnumbered.exists_position_iff figure
    rw [← hposition, ← hcoordinates, ← Coordinates.isSome_figureLines?_iff, queryFigure]
    cases loaded.program.coordinates.figureLines? figure <;> rfl
  refine ⟨htrace, hlines.trans (iff_and_self.mpr fun hstep => htrace.mpr ?_)⟩
  obtain ⟨b, hb, -⟩ := hstep
  exact List.ne_nil_of_mem hb

/-- A cut without coordinates is a figure that is drawn, but no line is told for it. -/
theorem figure_queries_differ :
    let _ := PlaneFunctions.axial
    let s := (Session.new .default (.default : Machine ℚ)).load "G1\n"
    s.program.figures = 1 ∧ ¬((s.queryFigure 1).isOk = true ↔ (s.queryTrace (some 1) none).isOk = true) := by
  decide +kernel

end Session

end PartProgram
