import PartProgram.Drawing.Trace
import PartProgram.Proofs.Program.Figures

/-! # Behind the end of a program

Lines behind the end of a program are read like all others: they move the tool, change modes, and start and stop
hidden sections. What they call is not run, and nothing of them is drawn.
-/

namespace PartProgram

variable {α : Type} [Scalar α]

/-! ### Reading -/

namespace ProgramReader

/-- Where nothing is called, only the markers of a program are looked up while a line is read. -/
theorem readLine_congr {s s' : Source} (hmarkers : s.markers = s'.markers) (r : ProgramReader α) {l : ℕ × String}
    (h : (LineCodes.ofLine α l.2).call? = none) : r.readLine s l = r.readLine s' l := by
  have hcall : (Block.read l.1 l.2 r.reader.modal).2.call = none := by simp [Block.read_snd, h]
  simp only [readLine, hcall, hmarkers]

/-- The program has ended once a line has ended it. -/
theorem ended_pass_readLine (s : Source) (r : ProgramReader α) (ls : List (ℕ × String)) :
    (pass (readLine s) r ls).1.ended = (r.ended || ls.any fun l => (LineCodes.ofLine α l.2).endsProgram) := by
  induction ls generalizing r with
  | nil => simp
  | cons l ls ih =>
      have hline : (r.readLine s l).1.ended = (r.ended || (LineCodes.ofLine α l.2).endsProgram) := by
        simp [readLine, Block.read_snd, LineCodes.endsProgram]
      rw [pass_cons, ih, hline, List.any_cons, Bool.or_assoc]

/-- From then on everything comes after the end. -/
theorem afterEnd_pass_readLine (s : Source) {r : ProgramReader α} (h : r.ended = true) (ls : List (ℕ × String)) :
    ∀ b ∈ (pass (readLine s) r ls).2.flatMap Entry.executed, b.afterEnd = true := by
  obtain ⟨m, n, hflags, hnone, -⟩ := Program.exists_replicate_pass_readLine s r ls
  rw [hnone h, List.replicate_zero, List.nil_append] at hflags
  intro b hb
  exact List.eq_of_mem_replicate (hflags ▸ List.mem_map_of_mem (f := Block.afterEnd) hb)

end ProgramReader

/-! ### What comes after the end -/

namespace Tool

/-- Moving the tool through what comes after the end adds nothing to what is known of the program. -/
theorem pass_of_afterEnd {bs : List (Block α)} (h : ∀ b ∈ bs, b.afterEnd = true) (machine : Machine α) (t : Tool α) :
    let moved := pass (step machine) t bs
    moved.1.extent = t.extent ∧ moved.1.coordinates.toList = t.coordinates.toList ∧ moved.1.figures = t.figures ∧
      ∀ b ∈ moved.2, b.afterEnd = true := by
  have hquiet : ∀ b ∈ bs, b.isQuiet = true := fun b hb => by simp [Block.isQuiet, Block.isDrawable, h b hb]
  obtain ⟨hextent, hcoordinates⟩ := pass_of_isQuiet hquiet machine t
  have hstep : ∀ t' : Tool α, ∀ b ∈ bs, t'.figures = t.figures →
      (step machine t' b).1.figures = t.figures ∧ (step machine t' b).2.afterEnd = true := by
    intro t' b hb hfigures
    refine ⟨?_, by rw [eq_of_step]; exact h b hb⟩
    rw [figures_step, ← hfigures]
    simp [Block.isDrawable, h b hb]
  exact ⟨hextent, hcoordinates, pass_invariant (I := fun t' : Tool α => t'.figures = t.figures) rfl hstep⟩

end Tool

namespace Tracer

/-- Nothing is drawn of what comes after the end. -/
theorem strokes_of_afterEnd {bs : List (Block α)} (h : ∀ b ∈ bs, b.afterEnd = true) (size : α) (only : Option ℕ)
    (t : Tracer) : (pass (step size only) t bs).2.flatten = [] := by
  rw [List.flatten_eq_nil_iff]
  intro strokes hstrokes
  obtain ⟨t', b, hb, rfl⟩ := exists_of_mem_pass hstrokes
  simp [step, Block.isDrawable, h b hb]

end Tracer

namespace Program

variable {front : List String} (hcalls : ∀ line ∈ front, (LineCodes.ofLine α line).call? = none)
  (hend : ∃ line ∈ front, (LineCodes.ofLine α line).endsProgram = true)

include hcalls hend

/-- The lines behind an end leave those in front of them as they are, and they come after the end. -/
theorem exists_executed_asRead_append (back : List String) (settings : Settings α) :
    ∃ after, (asRead (front ++ back) settings).executed = (asRead front settings).executed ++ after ∧
      ∀ b ∈ after, b.afterEnd = true := by
  set s := Source.ofLines α (front ++ back) settings.calls settings.markers with hs
  set s' := Source.ofLines α front settings.calls settings.markers with hs'
  set start : ProgramReader α := ⟨⟨Modal.initial, none⟩, false, false⟩
  set numbered := front.mapIdx fun n line => (n, line) with hnumbered
  have hmem : ∀ l ∈ numbered, l.2 ∈ front := by
    intro l hl
    rw [← map_snd_mapIdx front]
    exact List.mem_map_of_mem hl
  have hmarkers : s.markers = s'.markers := by rw [hs, hs', Source.ofLines, Source.ofLines]
  have hfront : pass (ProgramReader.readLine s) start numbered = pass (ProgramReader.readLine s') start numbered :=
    pass_congr (fun r l hl => r.readLine_congr hmarkers (hcalls l.2 (hmem l hl))) start
  have hended : (pass (ProgramReader.readLine s) start numbered).1.ended = true := by
    obtain ⟨line, hline, hends⟩ := hend
    rw [← map_snd_mapIdx front] at hline
    obtain ⟨l, hl, rfl⟩ := List.mem_map.mp hline
    rw [ProgramReader.ended_pass_readLine, List.any_eq_true.mpr ⟨l, hl, hends⟩, Bool.or_true]
  set behind := back.mapIdx fun n line => (n + front.length, line) with hbehind
  refine ⟨_, ?_, ProgramReader.afterEnd_pass_readLine s hended behind⟩
  simp only [executed, asRead, List.mapIdx_append, pass_append, List.flatMap_append]
  rw [← hnumbered, ← hbehind, ← hs, ← hs', ← hfront]

/-- The program runs what it runs without the lines behind its end, and after that steps that come after the end. -/
theorem exists_executed_append (back : List String) (settings : Settings α) (machine : Machine α) :
    ∃ after, (ofLines (front ++ back) settings machine).executed = (ofLines front settings machine).executed ++ after ∧
      ∀ b ∈ after, b.afterEnd = true := by
  obtain ⟨after, hexecuted, hafter⟩ := exists_executed_asRead_append hcalls hend back settings
  set last := (pass (Tool.step machine) (.atStart machine) (asRead front settings).executed).1
  refine ⟨_, ?_, (Tool.pass_of_afterEnd hafter machine last).2.2.2⟩
  rw [ofLines_eq, ofLines_eq, executed_place_eq, executed_place_eq, running_of_unmodified (modified_asRead _ settings),
    running_of_unmodified (modified_asRead _ settings), hexecuted, pass_append]

/-- What follows the end of a program is not drawn. Whatever lines stand behind an end, extent, positions, figures and
drawings are those of the program without them. -/
theorem drawn_append_of_endsProgram (back : List String) (settings : Settings α) (machine : Machine α) :
    let p := ofLines (front ++ back) settings machine
    let q := ofLines front settings machine
    p.extent = q.extent ∧ p.coordinates = q.coordinates ∧ p.figures = q.figures ∧
      ∀ unit only, p.strokes unit only = q.strokes unit only ∧
        Drawing.ofStrokes (p.strokes unit only) = Drawing.ofStrokes (q.strokes unit only) := by
  intro p q
  obtain ⟨after, hexecuted, hafter⟩ : ∃ after, p.executed = q.executed ++ after ∧ ∀ b ∈ after, b.afterEnd = true :=
    exists_executed_append hcalls hend back settings machine
  set last := (pass (Tool.step machine) (.atStart machine) q.executed).1 with hlast
  obtain ⟨hextent', hcoordinates'⟩ : q.extent = last.extent ∧ q.coordinates = last.coordinates.toList :=
    drawn_ofLines front settings machine
  have hfigures' : q.figures = last.figures := figures_ofLines front settings machine
  obtain ⟨hextent, hcoordinates⟩ : p.extent = (pass (Tool.step machine) (.atStart machine) p.executed).1.extent ∧
      p.coordinates = (pass (Tool.step machine) (.atStart machine) p.executed).1.coordinates.toList :=
    drawn_ofLines (front ++ back) settings machine
  have hfigures : p.figures = (pass (Tool.step machine) (.atStart machine) p.executed).1.figures :=
    figures_ofLines (front ++ back) settings machine
  rw [hexecuted, pass_append, ← hlast] at hextent hcoordinates hfigures
  obtain ⟨hsame, hpositions, hcount, -⟩ := Tool.pass_of_afterEnd hafter machine last
  have hstrokes : ∀ unit only, p.strokes unit only = q.strokes unit only := by
    intro unit only
    rw [strokes, strokes, hexecuted, pass_append, List.flatten_append, Tracer.strokes_of_afterEnd hafter,
      List.append_nil]
  refine ⟨hextent.trans (hsame.trans hextent'.symm), hcoordinates.trans (hpositions.trans hcoordinates'.symm),
    hfigures.trans (hcount.trans hfigures'.symm), fun unit only => ⟨hstrokes unit only, ?_⟩⟩
  rw [hstrokes]

omit hcalls hend in
/-- Behind the end stand a call with its body, relative moves, a hidden arc and another end. -/
theorem drawn_append_of_endsProgram_calling :
    let _ := PlaneFunctions.axial
    let front := ["G0 X1", "G1 X2 F100", "M30"]
    let back := ["M98 P7", "G91 G1 X5", "(%START_HIDECODE)", "G2 X1 I1", "M2", "O7", "G1 Z-1", "M99"]
    let p := ofLines (front ++ back) .default (.default : Machine ℚ)
    let q := ofLines front .default (.default : Machine ℚ)
    ((∀ line ∈ front, (LineCodes.ofLine ℚ line).call? = none) ∧
      ∃ line ∈ front, (LineCodes.ofLine ℚ line).endsProgram = true) ∧
    p.executed.length = 11 ∧ q.executed.length = 3 ∧
    p.extent = q.extent ∧ p.coordinates = q.coordinates ∧ p.figures = q.figures ∧
      ∀ unit only, p.strokes unit only = q.strokes unit only ∧
        Drawing.ofStrokes (p.strokes unit only) = Drawing.ofStrokes (q.strokes unit only) := by
  intro _ front back p q
  have hcalls : ∀ line ∈ front, (LineCodes.ofLine ℚ line).call? = none := by decide +kernel
  have hend : ∃ line ∈ front, (LineCodes.ofLine ℚ line).endsProgram = true := by decide +kernel
  exact ⟨⟨hcalls, hend⟩, by decide +kernel, by decide +kernel,
    drawn_append_of_endsProgram hcalls hend back .default (.default : Machine ℚ)⟩

end Program

end PartProgram
