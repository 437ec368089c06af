import PartProgram.Proofs.Program.Running

/-! # What can be drawn

Steps after the end of the program and steps in a hidden section are not drawn. The end comes once, and
hidden sections come from lines with their marker.
-/

namespace PartProgram

variable {α : Type} [Scalar α]

/-! ### The end of the program -/

omit [Scalar α] in
/-- The block is a line that ends the program, and it does not call. -/
def Block.isEnd (b : Block α) : Bool := b.programEnd && b.call.isNone && !b.inlined

namespace Program

/-- Once the program has ended, nothing runs that has not been read after its end, and it does not end before
its first line. -/
theorem exists_replicate_pass_readLine (s : Source) (r : ProgramReader α) (ls : List (ℕ × String)) :
    ∃ m n, ((pass (ProgramReader.readLine s) r ls).2.flatMap Entry.executed).map (·.afterEnd) =
      List.replicate m false ++ List.replicate n true ∧ (r.ended = true → m = 0) ∧
      (r.ended = false → m = 0 → n = 0) := by
  induction ls generalizing r with
  | nil => exact ⟨0, 0, rfl, fun _ => rfl, fun _ _ => rfl⟩
  | cons l ls ih =>
      obtain ⟨m, n, hrest, hended, -⟩ := ih (r.readLine s l).1
      have hline : (r.readLine s l).2.line.afterEnd = r.ended := by simp only [ProgramReader.readLine]
      have hcopies : (r.readLine s l).2.copies.map (fun c => c.block.afterEnd) =
          List.replicate (r.readLine s l).2.copies.length false := by
        obtain ⟨_, _, _, hroute⟩ := exists_copies_readLine s r l
        rw [List.eq_replicate_iff, List.length_map]
        refine ⟨rfl, fun flag hflag => ?_⟩
        obtain ⟨c, hc, rfl⟩ := List.mem_map.mp hflag
        exact hroute.afterEnd c hc
      have hexecuted : (r.readLine s l).2.executed.map (·.afterEnd) =
          r.ended :: List.replicate (r.readLine s l).2.copies.length false := by
        rw [Entry.executed, List.map_cons, hline, List.map_map, ← hcopies]
        rfl
      rw [pass_cons, List.flatMap_cons, List.map_append, hrest, hexecuted]
      cases hr : r.ended with
      | false =>
          refine ⟨(r.readLine s l).2.copies.length + 1 + m, n, ?_, by simp, fun _ => by omega⟩
          rw [List.replicate_add, List.replicate_succ, List.append_assoc]
      | true =>
          have hnone : (r.readLine s l).2.copies = [] := by
            simp only [ProgramReader.readLine, hr]
            split <;> rfl
          have hstays : (r.readLine s l).1.ended = true := by simp [ProgramReader.readLine, hr]
          refine ⟨0, n + 1, ?_, fun _ => rfl, by simp⟩
          rw [hnone, hended hstays]
          simp [List.replicate_succ]

/-- What runs before the end of a program comes before what runs after it. -/
theorem executed_eq_append (lines : List String) (settings : Settings α) (machine : Machine α) :
    ∃ before after, (ofLines lines settings machine).executed = before ++ after ∧
      (∀ b ∈ before, b.afterEnd = false) ∧ (∀ b ∈ after, b.afterEnd = true) ∧ (before = [] → after = []) := by
  obtain ⟨m, n, hread, -, hnonempty⟩ := exists_replicate_pass_readLine (α := α)
    (Source.ofLines α lines settings.calls settings.markers) ⟨⟨Modal.initial, none⟩, false, false⟩
    (lines.mapIdx fun n line => (n, line))
  have hflags : (ofLines lines settings machine).executed.map (·.afterEnd) =
      List.replicate m false ++ List.replicate n true :=
    (map_executed_place (modified_asRead lines settings) machine fun _ => rfl).trans hread
  obtain ⟨before, after, hexecuted, hbefore, hafter⟩ := List.map_eq_append_iff.mp hflags
  refine ⟨before, after, hexecuted, ?_, ?_, ?_⟩
  · exact fun b hb => List.eq_of_mem_replicate (hbefore ▸ List.mem_map_of_mem (f := Block.afterEnd) hb)
  · exact fun b hb => List.eq_of_mem_replicate (hafter ▸ List.mem_map_of_mem (f := Block.afterEnd) hb)
  · rintro rfl
    have hm : m = 0 := by simpa using hbefore.symm
    rw [hnonempty rfl hm, List.replicate_zero, List.map_eq_nil_iff] at hafter
    exact hafter

/-- After a step after the end of the program comes no step before it. -/
theorem pairwise_afterEnd (lines : List String) (settings : Settings α) (machine : Machine α) :
    (ofLines lines settings machine).executed.Pairwise fun b b' => b.afterEnd = true → b'.afterEnd = true := by
  obtain ⟨before, after, hexecuted, hbefore, hafter, -⟩ := executed_eq_append lines settings machine
  rw [hexecuted, List.pairwise_append]
  refine ⟨?_, ?_, ?_⟩
  · exact List.pairwise_of_forall_mem_list fun b hb b' _ hended => by simp [hbefore b hb] at hended
  · exact List.pairwise_of_forall_mem_list fun b _ b' hb' _ => hafter b' hb'
  · exact fun b _ b' hb' _ => hafter b' hb'

theorem pairwise_pass_readLine (s : Source) (r : ProgramReader α) (ls : List (ℕ × String)) :
    ((pass (ProgramReader.readLine s) r ls).2.flatMap Entry.executed).Pairwise
      fun b b' => b.isEnd = true → b'.afterEnd = true := by
  induction ls generalizing r with
  | nil => exact .nil
  | cons l ls ih =>
      obtain ⟨_, _, _, hroute⟩ := exists_copies_readLine s r l
      have hcopies : ∀ b ∈ (r.readLine s l).2.copies.map (·.block), b.isEnd = false := by
        intro b hb
        obtain ⟨c, hc, rfl⟩ := List.mem_map.mp hb
        simp [Block.isEnd, (hroute.copied c hc).1]
      have hline : (r.readLine s l).2.line.isEnd = true →
          (r.readLine s l).2.copies = [] ∧ (r.readLine s l).1.ended = true := by
        simp only [ProgramReader.readLine, Block.isEnd]
        cases (Block.read l.1 l.2 r.reader.modal).2.call <;> simp +contextual
      -- copies are no ends, and a line that is one leaves a reader that has ended
      rw [pass_cons, List.flatMap_cons, List.pairwise_append, Entry.executed, List.pairwise_cons]
      refine ⟨⟨?_, ?_⟩, ih _, ?_⟩
      · intro b hb hend
        simp [(hline hend).1] at hb
      · exact List.pairwise_of_forall_mem_list fun b hb b' _ hend => by simp [hcopies b hb] at hend
      · intro b hb b' hb' hend
        rcases List.mem_cons.mp hb with rfl | hb
        · obtain ⟨m, n, hflags, hended, -⟩ := exists_replicate_pass_readLine s (r.readLine s l).1 ls
          have hmem := List.mem_map_of_mem (f := Block.afterEnd) hb'
          rw [hflags, hended (hline hend).2, List.replicate_zero, List.nil_append] at hmem
          exact List.eq_of_mem_replicate hmem
        · simp [hcopies b hb] at hend

/-- Once a line has ended the program, everything comes after its end. -/
theorem pairwise_executed (lines : List String) (settings : Settings α) (machine : Machine α) :
    (ofLines lines settings machine).executed.Pairwise fun b b' => b.isEnd = true → b'.afterEnd = true := by
  have hread := pairwise_pass_readLine (α := α) (Source.ofLines α lines settings.calls settings.markers)
    ⟨⟨Modal.initial, none⟩, false, false⟩ (lines.mapIdx fun n line => (n, line))
  have hflags : ((asRead lines settings).executed.map fun b => (b.isEnd, b.afterEnd)).Pairwise
      fun x y => x.1 = true → y.2 = true := List.pairwise_map.mpr hread
  rw [← map_executed_place (modified_asRead lines settings) machine fun _ => rfl, List.pairwise_map] at hflags
  exact hflags

end Program

/-! ### Hidden sections -/

namespace Source

/-- No line starts a hidden section. -/
def Unmarked (s : Source) : Prop := ∀ n, Markers.onLine s.markers.hideStart (s.lines.getD n "") = false

variable {s : Source}

theorem Unmarked.hides (h : s.Unmarked) (n : ℕ) : s.markers.hides false (s.lines.getD n "") = false := by
  rw [Markers.hides, h n]
  simp

/-- Where no line starts a hidden section, the copies of a body are visible. -/
theorem Unmarked.inlineWith (h : s.Unmarked) {nested : Inlining α}
    (hnested : ∀ call line r, ∀ c ∈ (nested call line false r).2, c.block.hidden = false) (call : Call)
    (line : ℕ) (r : Reader α) : ∀ c ∈ (s.inlineWith nested call line false r).2, c.block.hidden = false := by
  have hline : ∀ (state : Bool × Reader α) (n : ℕ), state.1 = false →
      (s.copyLine nested false state n).1.1 = false ∧
        ∀ c ∈ (s.copyLine nested false state n).2, c.block.hidden = false := by
    rintro ⟨concealed, r⟩ n rfl
    simp only [copyLine, h.hides, Bool.or_self]
    split
    · exact ⟨rfl, by simp⟩
    · exact ⟨rfl, by simpa using hnested _ n _⟩
  have hbody : ∀ (body : Body) (r : Reader α),
      ∀ c ∈ (s.copyBody nested false body r).2, c.block.hidden = false := by
    intro body r c hc
    obtain ⟨copies, hcopies, hc⟩ := List.mem_flatten.mp hc
    exact forall_mem_pass (I := fun state => state.1 = false)
      (P := fun copies => ∀ c ∈ copies, c.block.hidden = false) rfl (fun state n _ => hline state n)
      copies hcopies c hc
  simp only [Source.inlineWith]
  rcases s.marks.locate s.rules r.found call.id line with ⟨found, _ | body⟩
  · simp
  · intro c hc
    obtain ⟨copies, hcopies, hc⟩ := List.mem_flatten.mp hc
    obtain ⟨r, n, -, rfl⟩ := exists_of_mem_pass hcopies
    exact hbody body r c hc

theorem Unmarked.inline (h : s.Unmarked) (depth : ℕ) (call : Call) (line : ℕ) (r : Reader α) :
    ∀ c ∈ (s.inline depth call line false r).2, c.block.hidden = false := by
  induction depth generalizing call line r with
  | zero =>
      rw [Source.inline]
      exact h.inlineWith (by simp) call line r
  | succ depth ih =>
      rw [Source.inline]
      exact h.inlineWith ih call line r

end Source

namespace Program

/-- Where no line starts a hidden section, everything that runs is visible. -/
theorem hidden_executed {lines : List String} {settings : Settings α}
    (hempty : Markers.onLine settings.markers.hideStart "" = false)
    (hlines : ∀ line ∈ lines, Markers.onLine settings.markers.hideStart line = false) (machine : Machine α) :
    ∀ b ∈ (ofLines lines settings machine).executed, b.hidden = false := by
  set s := Source.ofLines α lines settings.calls settings.markers with hs
  have hunmarked : s.Unmarked := by
    intro n
    rw [show s.lines.getD n "" = lines.getD n "" by simp [hs, Source.ofLines], List.getD_eq_getElem?_getD]
    cases hn : lines[n]? with
    | none => exact hempty
    | some line => exact hlines line (List.mem_of_getElem? hn)
  intro b hb
  have hmem := List.mem_map_of_mem (f := Block.hidden) hb
  rw [ofLines_eq, map_executed_place (modified_asRead lines settings) machine fun _ => rfl] at hmem
  obtain ⟨b₀, hb₀, heq⟩ := List.mem_map.mp hmem
  obtain ⟨e, he, hb₀⟩ := List.mem_flatMap.mp hb₀
  rw [← heq]
  refine forall_mem_pass (I := fun r => r.hidden = false)
    (P := fun e => ∀ b ∈ e.executed, b.hidden = false) rfl ?_ e he b₀ hb₀
  intro r l hl hr
  have hline : s.markers.hides r.hidden l.2 = false := by
    have hmark : Markers.onLine s.markers.hideStart l.2 = false := by
      refine hlines l.2 ?_
      rw [← map_snd_mapIdx lines]
      exact List.mem_map_of_mem hl
    rw [hr, Markers.hides, hmark]
    simp
  have hcopies : ∀ c ∈ (r.readLine s l).2.copies, c.block.hidden = false := by
    simp only [ProgramReader.readLine]
    split
    · split
      · simp
      · rw [hline]
        exact hunmarked.inline _ _ _ _
    · simp
  refine ⟨by simpa only [ProgramReader.readLine] using hline, ?_⟩
  intro b hb
  rcases List.mem_cons.mp hb with rfl | hb
  · simpa only [ProgramReader.readLine] using hline
  · obtain ⟨c, hc, rfl⟩ := List.mem_map.mp hb
    exact hcopies c hc

end Program

/-! ### The first lines -/

/-- As long as no line starts a hidden section or ends the program, lines are visible and come before its
end. -/
theorem ProgramReader.pass_readLine_visible (source : Source) {r : ProgramReader α} {ls : List (ℕ × String)}
    (hvisible : ∀ l ∈ ls, Markers.onLine source.markers.hideStart l.2 = false)
    (hends : ∀ l ∈ ls.dropLast, (LineCodes.ofLine α l.2).endsProgram = false)
    (hhidden : r.hidden = false) (hended : r.ended = false) :
    ∀ e ∈ (pass (ProgramReader.readLine source) r ls).2, e.line.hidden = false ∧ e.line.afterEnd = false := by
  induction ls generalizing r with
  | nil => simp
  | cons l ls ih =>
      have hhides : source.markers.hides r.hidden l.2 = false := by
        rw [hhidden, Markers.hides, hvisible l (by simp)]
        simp
      have hline : (r.readLine source l).2.line.hidden = false ∧
          (r.readLine source l).2.line.afterEnd = false := by
        simp only [ProgramReader.readLine]
        exact ⟨hhides, hended⟩
      intro e he
      rw [pass_cons] at he
      rcases List.mem_cons.mp he with rfl | he
      · exact hline
      · cases ls with
        | nil => simp at he
        | cons l' ls =>
            rw [List.dropLast_cons_cons] at hends
            have hend : (Block.read l.1 l.2 r.reader.modal).2.programEnd = false := by
              rw [← hends l (by simp)]
              simp [Block.read_snd, LineCodes.endsProgram]
            refine ih (fun l hl => hvisible l (by simp [hl])) (fun l hl => hends l (by simp [hl])) ?_ ?_ e he
            · simpa only [ProgramReader.readLine] using hhides
            · simp only [ProgramReader.readLine, hended, hend, Bool.or_self]

/-- The first lines of a program, up to one that ends it, are visible and come before its end. -/
theorem Program.visible_of_lines_eq_append {lines : List String} {settings : Settings α} {machine : Machine α}
    {front back : List (Block α)} (hlines : (ofLines lines settings machine).lines = front ++ back)
    (hvisible : ∀ b ∈ front, Markers.onLine settings.markers.hideStart b.text = false)
    (hends : ∀ b ∈ front.dropLast, (LineCodes.ofLine α b.text).endsProgram = false) :
    ∀ b ∈ front, b.hidden = false ∧ b.afterEnd = false := by
  obtain rfl : lines = front.map (·.text) ++ back.map (·.text) := by
    rw [← texts_ofLines lines settings machine, hlines, List.map_append]
  have hread := congrArg (List.map fun b : Block α => (b.hidden, b.afterEnd))
    ((asRead (front.map (·.text) ++ back.map (·.text)) settings).lines_place machine)
  rw [List.map_map, List.map_map, ← ofLines_eq, hlines, List.map_append, asRead, lines, List.mapIdx_append,
    pass_append, List.map_append, List.map_append] at hread
  have hfirst := (List.append_inj hread (by simp)).1
  intro b hb
  have hmem := List.mem_map_of_mem (f := (fun b : Block α => (b.hidden, b.afterEnd)) ∘ Block.unplaced) hb
  rw [hfirst, List.map_map] at hmem
  obtain ⟨e, he, heq⟩ := List.mem_map.mp hmem
  obtain ⟨hhidden, hafterEnd⟩ := Prod.mk.inj heq
  change e.line.hidden = b.hidden at hhidden
  change e.line.afterEnd = b.afterEnd at hafterEnd
  rw [← hhidden, ← hafterEnd]
  refine ProgramReader.pass_readLine_visible _ ?_ ?_ rfl rfl e he
  · intro l hl
    have htext : l.2 ∈ front.map (·.text) := by
      rw [← map_snd_mapIdx (front.map (·.text))]
      exact List.mem_map_of_mem hl
    obtain ⟨b, hb, htext⟩ := List.mem_map.mp htext
    rw [← htext]
    exact hvisible b hb
  · intro l hl
    have htext : l.2 ∈ front.dropLast.map (·.text) := by
      rw [List.map_dropLast, ← map_snd_mapIdx (front.map (·.text)), ← List.map_dropLast]
      exact List.mem_map_of_mem hl
    obtain ⟨b, hb, htext⟩ := List.mem_map.mp htext
    rw [← htext]
    exact hends b hb

end PartProgram
