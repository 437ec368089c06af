import PartProgram.Proofs.Pass
import PartProgram.Program.Placing

/-! # Placing a program

Placing replaces what an earlier placing has found, and it changes nothing else.
-/

namespace PartProgram

variable {α : Type} [Scalar α]

/-- The block without its place. -/
def Block.unplaced (b : Block α) : Block α := { b with place := .unplaced }

/-- The entry without places. -/
def Entry.unplaced (e : Entry α) : Entry α :=
  ⟨e.line.unplaced, e.copies.map fun c => { c with block := c.block.unplaced }⟩

namespace Tool

variable (machine : Machine α) (t : Tool α) (b : Block α)

theorem step_unplaced : t.step machine b.unplaced = t.step machine b := rfl

@[simp]
theorem unplaced_step : (t.step machine b).2.unplaced = b.unplaced := by
  simp only [step]
  split <;> rfl

theorem step_placed : t.step machine (t.step machine b).2 = t.step machine b := by
  rw [← step_unplaced, unplaced_step, step_unplaced]

/-- Lines that have been placed are placed again as if they had not. -/
theorem pass_step_placed (bs : List (Block α)) :
    pass (step machine) t (pass (step machine) t bs).2 = pass (step machine) t bs := by
  induction bs generalizing t with
  | nil => rfl
  | cons b bs ih => simp only [pass_cons, step_placed, ih]

end Tool

/-! ### Copies of unchanged lines -/

omit [Scalar α] in
theorem Copy.follow_of_unmodified {lines : Array (Block α)}
    (h : ∀ b ∈ lines, b.modified = false) (c : Copy α) : c.follow lines = c := by
  rw [Copy.follow]
  split
  · rfl
  · rename_i line hline
    have hm : line.modified = false := h line (Array.mem_of_getElem? hline)
    simp [hm]

theorem Entry.place_unplaced (machine : Machine α) {lines : Array (Block α)}
    (h : ∀ b ∈ lines, b.modified = false) (t : Tool α) (e : Entry α) :
    Entry.place machine lines t e = Entry.place machine #[] t e.unplaced := by
  have hempty : ∀ c : Copy α, c.follow #[] = c :=
    Copy.follow_of_unmodified (by simp)
  simp only [Entry.place, Entry.unplaced, pass_map, Tool.step_unplaced,
    Copy.follow_of_unmodified h, hempty]

/-- Placing keeps everything but the places. -/
theorem Entry.unplaced_place (machine : Machine α) {lines : Array (Block α)}
    (h : ∀ b ∈ lines, b.modified = false) (t : Tool α) (e : Entry α) :
    (Entry.place machine lines t e).2.unplaced = e.unplaced := by
  have hcopies : ∀ (t : Tool α) (cs : List (Copy α)),
      (pass (fun t c => ((Tool.step machine t c.block).1,
          { c with block := (Tool.step machine t c.block).2 })) t cs).2.map
        (fun c => ({ c with block := c.block.unplaced } : Copy α)) =
        cs.map fun c => { c with block := c.block.unplaced } := by
    intro t cs
    induction cs generalizing t with
    | nil => rfl
    | cons c cs ih => simp [pass_cons, ih]
  simp only [Entry.place, Copy.follow_of_unmodified h, Entry.unplaced, Tool.unplaced_step, hcopies]

namespace Program

variable {p q : Program α}

theorem entries_place (h : ∀ b ∈ p.lines, b.modified = false) (machine : Machine α) :
    (p.place machine).entries.map Entry.unplaced = p.entries.map Entry.unplaced := by
  have hlines : ∀ b ∈ p.lines.toArray, b.modified = false := by simpa using h
  have hpass : ∀ (t : Tool α) (es : List (Entry α)),
      (pass (Entry.place machine p.lines.toArray) t es).2.map Entry.unplaced =
        es.map Entry.unplaced := by
    intro t es
    induction es generalizing t with
    | nil => rfl
    | cons e es ih => simp [pass_cons, Entry.unplaced_place machine hlines, ih]
  exact hpass _ _

/-- Programs that differ in places only are placed alike. -/
theorem place_congr (hp : ∀ b ∈ p.lines, b.modified = false)
    (hq : ∀ b ∈ q.lines, b.modified = false)
    (hentries : p.entries.map Entry.unplaced = q.entries.map Entry.unplaced)
    (harcs : p.containsArcs = q.containsArcs)
    (hrelative : p.containsRelative = q.containsRelative) (machine : Machine α) :
    p.place machine = q.place machine := by
  have hpass : ∀ (r : Program α), (∀ b ∈ r.lines, b.modified = false) →
      pass (Entry.place machine r.lines.toArray) (.atStart machine) r.entries =
        pass (Entry.place machine #[]) (.atStart machine) (r.entries.map Entry.unplaced) := by
    intro r hr
    have hlines : ∀ b ∈ r.lines.toArray, b.modified = false := by simpa using hr
    rw [pass_map]
    congr 1
    funext t e
    exact Entry.place_unplaced machine hlines t e
  simp only [place, hpass p hp, hpass q hq, hentries, harcs, hrelative]

theorem executed_place (h : ∀ b ∈ p.lines, b.modified = false) (machine : Machine α) :
    (p.place machine).executed.map Block.unplaced = p.executed.map Block.unplaced := by
  have hexecuted : ∀ r : Program α,
      r.executed.map Block.unplaced = (r.entries.map Entry.unplaced).flatMap Entry.executed := by
    intro r
    simp [executed, Entry.executed, Entry.unplaced, List.map_flatMap, List.flatMap_map,
      Function.comp_def]
  rw [hexecuted, hexecuted, entries_place h]

/-- What does not show the places of the blocks that run is the same before placing. -/
theorem map_executed_place (h : ∀ b ∈ p.lines, b.modified = false) (machine : Machine α) {β : Type}
    {f : Block α → β} (hf : ∀ b : Block α, f b.unplaced = f b) :
    (p.place machine).executed.map f = p.executed.map f := by
  have hfactor : ∀ bs : List (Block α), bs.map f = (bs.map Block.unplaced).map f := by
    intro bs
    simp [hf]
  rw [hfactor, executed_place h, ← hfactor]

theorem lines_place (p : Program α) (machine : Machine α) :
    (p.place machine).lines.map Block.unplaced = p.lines.map Block.unplaced := by
  simp only [place, lines, List.map_map]
  refine map_pass (fun t e => ?_) _ _
  exact t.unplaced_step machine e.line

/-- A line that has been placed is one of the lines but for its place. -/
theorem exists_mem_of_mem_lines_place {machine : Machine α} {b : Block α} (hb : b ∈ (p.place machine).lines) :
    ∃ b₀ ∈ p.lines, b₀.unplaced = b.unplaced :=
  List.mem_map.mp (p.lines_place machine ▸ List.mem_map_of_mem hb)

theorem modified_place (h : ∀ b ∈ p.lines, b.modified = false) (machine : Machine α) :
    ∀ b ∈ (p.place machine).lines, b.modified = false := by
  intro b hb
  obtain ⟨b₀, hb₀, heq⟩ := exists_mem_of_mem_lines_place hb
  have hm := congrArg Block.modified heq
  exact hm.symm.trans (h b₀ hb₀)

/-- A program of unchanged lines that has been placed before is placed as if it had not. -/
theorem place_place (h : ∀ b ∈ p.lines, b.modified = false) (machine machine' : Machine α) :
    (p.place machine).place machine' = p.place machine' :=
  place_congr (modified_place h machine) h (entries_place h machine) rfl rfl machine'

end Program

end PartProgram
