import PartProgram.Number.Floating
import PartProgram.Proofs.Program.Settled

/-! # Lines put into a program

A copy of a subroutine line belongs to a line of the program that has the text from which the copy has been read.
That stays so while lines are put in and the program is placed again, although lines get new numbers. A new line runs
right before the line that it has been put in front of, and all else runs in the order in which it ran before.
-/

namespace PartProgram

/-! ### Calls run lines of the program -/

/-- The body found last ends within the first `size` lines. -/
def Found.Within (size : ℕ) (found : Found) : Prop := ∀ f ∈ found, f.2.stop ≤ size

namespace Landmarks

variable {marks : Landmarks} {size : ℕ}

theorem stop_mem_returns {id start : ℕ} {body : Body} (h : marks.search id start = some body) :
    body.stop ∈ marks.returns := by
  obtain ⟨label, -, hbody⟩ := Option.bind_eq_some_iff.mp h
  obtain ⟨stop, hstop, rfl⟩ := Option.map_eq_some_iff.mp hbody
  exact List.mem_of_find?_eq_some hstop

/-- Bodies end where lines return. -/
theorem locate_within (hreturns : ∀ n ∈ marks.returns, n < size) (rules : CallRules) {found : Found}
    (hfound : found.Within size) (id line : ℕ) :
    (marks.locate rules found id line).1.Within size ∧
      ∀ body ∈ (marks.locate rules found id line).2, body.stop ≤ size := by
  have hsearch : ∀ body,
      (marks.search id (line + 1)).or (if rules.rescan then marks.search id 0 else none) = some body →
        body.stop ≤ size := by
    intro body hbody
    rcases Option.or_eq_some_iff.mp hbody with hafter | ⟨-, hany⟩
    · exact (hreturns _ (stop_mem_returns hafter)).le
    · split at hany
      · exact (hreturns _ (stop_mem_returns hany)).le
      · simp at hany
  have hnew : ∀ body, body.stop ≤ size → Found.Within size (some (id, body)) := by
    rintro body hbody _ ⟨⟩
    exact hbody
  simp only [locate]
  generalize (marks.search id (line + 1)).or (if rules.rescan then marks.search id 0 else none) = result at hsearch
  cases found with
  | none =>
      cases result with
      | none => exact ⟨hfound, by simp⟩
      | some body => exact ⟨hnew body (hsearch body rfl), by simpa using hsearch body rfl⟩
  | some last =>
      obtain ⟨name, last⟩ := last
      by_cases hname : name = id
      · have hlast : last.stop ≤ size := hfound _ rfl
        simpa [hname] using ⟨hnew last hlast, hlast⟩
      · simp only [if_neg hname]
        cases result with
        | none => exact ⟨hfound, by simp⟩
        | some body => exact ⟨hnew body (hsearch body rfl), by simpa using hsearch body rfl⟩

end Landmarks

variable {α : Type} [Scalar α]

namespace Source

/-- Calls keep to the first `size` lines, as long as the body found last does. -/
def Routing.Within (size : ℕ) (nested : Routing) : Prop :=
  ∀ call line found, Found.Within size found →
    (nested call line found).1.Within size ∧ ∀ n ∈ (nested call line found).2, n < size

variable {s : Source} {nested : Routing} {size : ℕ}

theorem routeLine_within (hnested : Routing.Within size nested) {found : Found} (hfound : found.Within size) {n : ℕ}
    (hn : n < size) :
    (s.routeLine α nested found n).1.Within size ∧ ∀ k ∈ (s.routeLine α nested found n).2, k < size := by
  rw [routeLine]
  cases (s.codesAt α n).call? with
  | none => exact ⟨hfound, by simpa using hn⟩
  | some call =>
      obtain ⟨hlast, hlines⟩ := hnested call n found hfound
      exact ⟨hlast, List.forall_mem_cons.mpr ⟨hn, hlines⟩⟩

theorem routeBody_within (hnested : Routing.Within size nested) {body : Body} (hbody : body.stop ≤ size) {found : Found}
    (hfound : found.Within size) :
    (s.routeBody α nested body found).1.Within size ∧ ∀ n ∈ (s.routeBody α nested body found).2, n < size := by
  have hpass : (pass (s.routeLine α nested) found body.lines).1.Within size ∧
      ∀ ns ∈ (pass (s.routeLine α nested) found body.lines).2, ∀ n ∈ ns, n < size := by
    refine pass_invariant hfound fun found n hn hfound => ?_
    obtain ⟨k, hk, rfl⟩ := List.mem_range'.mp hn
    exact routeLine_within hnested hfound (by omega)
  exact ⟨hpass.1, by simpa [routeBody, List.mem_flatten] using fun n ns hns => hpass.2 ns hns n⟩

theorem routeWith_within (hreturns : ∀ n ∈ s.marks.returns, n < size) (hnested : Routing.Within size nested) :
    Routing.Within size (s.routeWith α nested) := by
  intro call line found hfound
  have hlocate := Landmarks.locate_within hreturns s.rules hfound call.id line
  rw [routeWith]
  generalize s.marks.locate s.rules found call.id line = located at hlocate ⊢
  obtain ⟨found, body?⟩ := located
  obtain ⟨hlast, hbody⟩ := hlocate
  cases body? with
  | none => exact ⟨hlast, by simp⟩
  | some body =>
      let run (found : Found) (_ : ℕ) := s.routeBody α nested body found
      have hpass : (pass run found (List.range call.times)).1.Within size ∧
          ∀ ns ∈ (pass run found (List.range call.times)).2, ∀ n ∈ ns, n < size :=
        pass_invariant hlast fun _ _ _ hfound => routeBody_within hnested (hbody body rfl) hfound
      exact ⟨hpass.1, by simpa [List.mem_flatten] using fun n ns hns => hpass.2 ns hns n⟩

theorem route_within (hreturns : ∀ n ∈ s.marks.returns, n < size) (depth : ℕ) :
    Routing.Within size (s.route α depth) := by
  induction depth with
  | zero => exact routeWith_within hreturns fun _ _ _ hfound => ⟨hfound, by simp⟩
  | succ depth ih => exact routeWith_within hreturns ih

/-- The lines that run are lines of the program. -/
theorem lt_of_mem_order (lines : List String) (rules : CallRules) (markers : Markers) :
    ∀ step ∈ (ofLines α lines rules markers).order α, step.2 < lines.length := by
  set s := ofLines α lines rules markers with hs
  have hsize : s.lines.size = lines.length := by simp [hs, ofLines]
  have hreturns : ∀ n ∈ s.marks.returns, n < lines.length := by
    intro n hn
    have hmarks : s.marks.returns = (Landmarks.ofLines α lines).returns := rfl
    rw [hmarks, Landmarks.returns_ofLines] at hn
    obtain ⟨l, hl, rfl⟩ := List.mem_map.mp hn
    exact (List.mem_zipIdx' (List.mem_of_mem_filter hl)).1
  have htop : ∀ state : Found × Bool, ∀ n ∈ List.range s.lines.size, state.1.Within lines.length →
      (s.routeTop α state n).1.1.Within lines.length ∧ ∀ step ∈ (s.routeTop α state n).2, step.2 < lines.length := by
    intro state n hn hfound
    obtain ⟨found, ended⟩ := state
    have hline : n < lines.length := hsize ▸ List.mem_range.mp hn
    have hcalled : ∀ located : Found × List ℕ, located.1.Within lines.length → (∀ k ∈ located.2, k < lines.length) →
        located.1.Within lines.length ∧ ∀ step ∈ (false, n) :: located.2.map (true, ·), step.2 < lines.length := by
      intro located hlast hlines
      exact ⟨hlast, List.forall_mem_cons.mpr ⟨hline, by simpa using hlines⟩⟩
    simp only [routeTop]
    cases (s.codesAt α n).call? with
    | none => exact hcalled (found, []) hfound (by simp)
    | some call =>
        cases ended with
        | true => exact hcalled (found, []) hfound (by simp)
        | false =>
            obtain ⟨hlast, hlines⟩ := route_within (α := α) hreturns (s.rules.maxDepth - 1) call n found hfound
            exact hcalled _ hlast hlines
  have hnone : Found.Within lines.length none := by simp [Found.Within]
  have hpass : ∀ steps ∈ (pass (s.routeTop α) (none, false) (List.range s.lines.size)).2,
      ∀ step ∈ steps, step.2 < lines.length :=
    forall_mem_pass (I := fun state => state.1.Within lines.length) hnone htop
  intro step hstep
  obtain ⟨steps, hsteps, hstep⟩ := List.mem_flatten.mp hstep
  exact hpass steps hsteps step hstep

end Source

/-! ### The order of execution as steps -/

/-- A step of the execution: a line of the program by its index, or a copy of one. -/
inductive Step (α : Type) where
  | line (index : ℕ)
  | copy (c : Copy α)

namespace Step

def line? : Step α → Option ℕ
  | line index => some index
  | copy _ => none

def copy? : Step α → Option (Copy α)
  | line _ => none
  | copy c => some c

/-- What is executed at the step of a program with these lines. -/
def block? (lines : List (Block α)) : Step α → Option (Block α)
  | line index => lines[index]?
  | copy c => some c.block

end Step

/-- The steps of an entry that is the one with the index. -/
def Entry.steps (e : Entry α) (index : ℕ) : List (Step α) := .line index :: e.copies.map .copy

/-- The steps of entries of which the first has the index `start`. -/
def stepsFrom (start : ℕ) (entries : List (Entry α)) : List (Step α) :=
  (entries.zipIdx start).flatMap fun e => e.1.steps e.2

/-- The steps of the program in the order of execution. -/
def Program.steps (p : Program α) : List (Step α) := stepsFrom 0 p.entries

section

variable {start : ℕ} {e : Entry α} {es fs : List (Entry α)}

omit [Scalar α]

theorem stepsFrom_cons : stepsFrom start (e :: es) = e.steps start ++ stepsFrom (start + 1) es := rfl

theorem stepsFrom_append : stepsFrom start (es ++ fs) = stepsFrom start es ++ stepsFrom (start + es.length) fs := by
  rw [stepsFrom, List.zipIdx_append, List.flatMap_append]
  rfl

theorem head?_stepsFrom : (stepsFrom start es).head? = if es = [] then none else some (.line start) := by
  cases es <;> rfl

/-- Every line is a step once, and they are in order. -/
theorem filterMap_line?_stepsFrom : (stepsFrom start es).filterMap Step.line? = List.range' start es.length := by
  induction es generalizing start with
  | nil => rfl
  | cons e es ih =>
      have hentry : (e.steps start).filterMap Step.line? = [start] := by
        simp [Entry.steps, Step.line?, List.filterMap_map, Function.comp_def]
      rw [stepsFrom_cons, List.filterMap_append, hentry, ih]
      rfl

theorem filterMap_copy?_stepsFrom : (stepsFrom start es).filterMap Step.copy? = es.flatMap (·.copies) := by
  induction es generalizing start with
  | nil => rfl
  | cons e es ih =>
      have hentry : (e.steps start).filterMap Step.copy? = e.copies := by
        rw [Entry.steps, List.filterMap_cons_none rfl, List.filterMap_map]
        exact List.filterMap_some
      rw [stepsFrom_cons, List.filterMap_append, hentry, ih]
      rfl

/-- The steps execute what the entries do. -/
theorem map_block?_stepsFrom (before : List (Block α)) :
    (stepsFrom before.length es).map (Step.block? (before ++ es.map (·.line))) =
      (es.flatMap Entry.executed).map some := by
  induction es generalizing before with
  | nil => rfl
  | cons e es ih =>
      have hrest := ih (before ++ [e.line])
      rw [List.length_append, List.length_singleton, List.append_assoc, List.singleton_append] at hrest
      rw [stepsFrom_cons, List.map_append, List.map_cons, hrest, List.flatMap_cons, List.map_append]
      simp [Entry.steps, Entry.executed, Step.block?]

theorem Program.map_block?_steps (p : Program α) : p.steps.map (Step.block? p.lines) = p.executed.map some :=
  map_block?_stepsFrom []

theorem Program.mem_copies_of_mem_steps {p : Program α} {c : Copy α} (hc : c ∈ p.steps.filterMap Step.copy?) :
    ∃ e ∈ p.entries, c ∈ e.copies := by
  rw [Program.steps, filterMap_copy?_stepsFrom] at hc
  exact List.mem_flatMap.mp hc

end

/-! ### Steps that are numbered anew -/

/-- What becomes of an index when a line is put in front of line `slot`. -/
def shiftedIndex (slot n : ℕ) : ℕ := if slot ≤ n then n + 1 else n

def Copy.shifted (slot : ℕ) (c : Copy α) : Copy α := { c with definition := shiftedIndex slot c.definition }

def Entry.shifted (slot : ℕ) (e : Entry α) : Entry α := { e with copies := e.copies.map (.shifted slot) }

/-- The step with its index, or that of its line, as it is once a line has been put in front of line `slot`. -/
def Step.shifted (slot : ℕ) : Step α → Step α
  | line index => line (shiftedIndex slot index)
  | copy c => copy (c.shifted slot)

/-- The steps once a line has been put in front of line `slot`: all are numbered anew, and the new one goes in front of
the first one with a greater index. -/
def insertStep (slot : ℕ) (steps : List (Step α)) : List (Step α) :=
  let steps := steps.map (Step.shifted slot)
  steps.insertIdx (steps.findIdx fun step => step.line?.any (slot < ·)) (.line slot)

section

variable {start slot : ℕ} {es : List (Entry α)}

omit [Scalar α]

/-- Entries whose lines get the indices from `next` on. -/
theorem stepsFrom_map_shifted {next : ℕ} (h : ∀ k < es.length, shiftedIndex slot (start + k) = next + k) :
    stepsFrom next (es.map (Entry.shifted slot)) = (stepsFrom start es).map (Step.shifted slot) := by
  induction es generalizing start next with
  | nil => rfl
  | cons e es ih =>
      rw [List.length_cons] at h
      have hindex : shiftedIndex slot start = next := h 0 (by omega)
      have hrest : ∀ k < es.length, shiftedIndex slot (start + 1 + k) = next + 1 + k := by
        intro k hk
        rw [Nat.add_assoc, Nat.add_assoc, Nat.add_comm 1 k]
        exact h (k + 1) (by omega)
      rw [List.map_cons, stepsFrom_cons, stepsFrom_cons, List.map_append, ih hrest]
      simp [Entry.steps, Entry.shifted, Step.shifted, hindex]

theorem Program.entries_insertLine (p : Program α) (index : ℕ) (line : Block α) :
    let slot := min index p.lines.length
    (p.insertLine index line).entries = (p.entries.take slot).map (.shifted slot) ++
      .ofLine line :: (p.entries.drop slot).map (.shifted slot) := by
  intro slot
  have hcopy : ∀ c : Copy α, (if slot ≤ c.definition then { c with definition := c.definition + 1 } else c) =
      c.shifted slot := by
    intro c
    rw [Copy.shifted, shiftedIndex]
    split <;> rfl
  have hslot : slot = min index p.entries.length := by simp [slot, Program.lines]
  have hlength : ((p.entries.take slot).map (Entry.shifted slot)).length = slot := by
    rw [List.length_map, List.length_take, hslot]
    omega
  have hentries : (p.insertLine index line).entries =
      (p.entries.map (Entry.shifted slot)).insertIdx slot (.ofLine line) := by
    simp only [insertLine, ← hslot, hcopy]
    rfl
  have hsplit := insertIdx_length_append ((p.entries.take slot).map (Entry.shifted slot))
    ((p.entries.drop slot).map (Entry.shifted slot)) (.ofLine line)
  rw [hlength, ← List.map_append, List.take_append_drop] at hsplit
  exact hentries.trans hsplit

/-- A new line runs right before the line in front of which it has been put, and last at the end of the program. -/
theorem Program.steps_insertLine (p : Program α) (index : ℕ) (line : Block α) :
    let slot := min index p.lines.length
    ∃ before after, p.steps = before ++ after ∧ before.filterMap Step.line? = List.range slot ∧
      after.head? = (if slot < p.lines.length then some (.line slot) else none) ∧
      (p.insertLine index line).steps =
        before.map (.shifted slot) ++ .line slot :: after.map (.shifted slot) := by
  intro slot
  have hlength : (p.entries.take slot).length = slot := by
    simp [slot, Program.lines]
  refine ⟨stepsFrom 0 (p.entries.take slot), stepsFrom slot (p.entries.drop slot), ?_, ?_, ?_, ?_⟩
  · rw [Program.steps, ← List.take_append_drop slot p.entries, stepsFrom_append, hlength, Nat.zero_add,
      List.take_append_drop]
  · rw [filterMap_line?_stepsFrom, hlength, List.range_eq_range']
  · rw [head?_stepsFrom]
    simp only [List.drop_eq_nil_iff, Program.lines, List.length_map]
    split_ifs with hend hslot
    · omega
    · rfl
    · rfl
    · omega
  · have hnew : stepsFrom slot (Entry.ofLine line :: (p.entries.drop slot).map (Entry.shifted slot)) =
        .line slot :: stepsFrom (slot + 1) ((p.entries.drop slot).map (Entry.shifted slot)) := rfl
    have hfront : ∀ k < (p.entries.take slot).length, shiftedIndex slot (0 + k) = 0 + k := fun k hk =>
      if_neg (by omega)
    have hback : ∀ k < (p.entries.drop slot).length, shiftedIndex slot (slot + k) = slot + 1 + k := fun k _ =>
      (if_pos (Nat.le_add_right slot k)).trans (by omega)
    rw [Program.steps, p.entries_insertLine, stepsFrom_append, List.length_map, hlength, Nat.zero_add, hnew,
      stepsFrom_map_shifted hfront, stepsFrom_map_shifted hback]

/-- Where the lines in front have smaller indices and the next step is that of line `slot`, the new step goes between
them. -/
theorem insertStep_append {before after : List (Step α)} (hbefore : ∀ n ∈ before.filterMap Step.line?, n < slot)
    (hafter : ∀ step ∈ after.head?, step = .line slot) :
    insertStep slot (before ++ after) =
      before.map (.shifted slot) ++ .line slot :: after.map (.shifted slot) := by
  have hfront : (before.map (Step.shifted slot)).findIdx (fun step => step.line?.any (slot < ·)) =
      (before.map (Step.shifted slot)).length := by
    rw [List.findIdx_eq_length]
    intro step hstep
    obtain ⟨old, hold, rfl⟩ := List.mem_map.mp hstep
    cases old with
    | copy c => rfl
    | line n =>
        have hn : n < slot := hbefore n (List.mem_filterMap.mpr ⟨_, hold, rfl⟩)
        simp [Step.shifted, Step.line?, shiftedIndex, Nat.not_le.mpr hn, hn.le]
  have hback : (after.map (Step.shifted slot)).findIdx (fun step => step.line?.any (slot < ·)) = 0 := by
    cases after with
    | nil => rfl
    | cons step after =>
        obtain rfl := hafter step rfl
        simp [Step.shifted, Step.line?, shiftedIndex, List.findIdx_cons]
  rw [insertStep, List.map_append, List.findIdx_append, hfront, if_neg (lt_irrefl _), hback, Nat.zero_add]
  exact insertIdx_length_append _ _ _

theorem Program.steps_insertLine_eq (p : Program α) (index : ℕ) (line : Block α) :
    (p.insertLine index line).steps = insertStep (min index p.lines.length) p.steps := by
  obtain ⟨before, after, hsteps, hbefore, hafter, hinserted⟩ := p.steps_insertLine index line
  set slot := min index p.lines.length
  have hless : ∀ n ∈ before.filterMap Step.line?, n < slot := fun n hn => List.mem_range.mp (hbefore ▸ hn)
  have hnext : ∀ step ∈ after.head?, step = .line slot := by
    intro step hstep
    rw [hafter] at hstep
    split at hstep
    · exact (Option.some_inj.mp hstep).symm
    · simp at hstep
  rw [hinserted, hsteps, insertStep_append hless hnext]

end

/-! ### Copies and the lines they belong to -/

/-- A line is put in front of the line with an index, or the program is placed again. -/
inductive Amendment (α : Type) where
  | insert (index : ℕ) (line : Block α)
  | place (machine : Machine α)

namespace Program

def amend (p : Program α) : Amendment α → Program α
  | .insert index line => p.insertLine index line
  | .place machine => p.place machine

omit [Scalar α] in
/-- Every copy belongs to a line of the program, and that line has the text from which the copy has been read. -/
def Attached (source : List String) (p : Program α) : Prop :=
  ∀ e ∈ p.entries, ∀ c ∈ e.copies, source[c.block.number]? = some c.block.text ∧
    p.lines[c.definition]?.map (·.text) = some c.block.text

variable {source : List String} {p : Program α}

theorem attached_ofLines (lines : List String) (settings : Settings α) (machine : Machine α) :
    (ofLines lines settings machine).Attached lines := by
  intro e he c hc
  obtain ⟨-, hsteps⟩ := executed_ofLines lines settings machine
  obtain ⟨-, -, htext⟩ := words_of_mem_copies he hc
  have hnumber := number_of_mem_copies he hc
  have hmem : c.block ∈ (ofLines lines settings machine).executed :=
    List.mem_flatMap.mpr ⟨e, he, List.mem_cons_of_mem _ (List.mem_map_of_mem hc)⟩
  have hstep := List.mem_map_of_mem (f := fun b : Block α => (b.inlined, b.number)) hmem
  rw [hsteps] at hstep
  have hlt : c.definition < lines.length := hnumber ▸ Source.lt_of_mem_order lines _ _ _ hstep
  have hline : lines[c.definition]? = some c.block.text := by
    rw [htext, List.getD_eq_getElem?_getD, List.getElem?_eq_getElem hlt, Option.getD_some]
  refine ⟨hnumber ▸ hline, ?_⟩
  rw [← List.getElem?_map, texts_ofLines, hline]

theorem Attached.place (h : p.Attached source) (machine : Machine α) : (p.place machine).Attached source := by
  have htexts : (p.place machine).lines.map (·.text) = p.lines.map (·.text) := by
    have hlines := congrArg (List.map Block.text) (p.lines_place machine)
    rwa [List.map_map, List.map_map] at hlines
  intro e' he' c' hc'
  obtain ⟨e, he, c, hc, hdefinition, hedit⟩ := exists_of_mem_copies_place he' hc'
  obtain ⟨hread, hline⟩ := h e he c hc
  rw [hedit.number, hedit.text, hdefinition, ← List.getElem?_map, htexts, List.getElem?_map]
  exact ⟨hread, hline⟩

omit [Scalar α] in
/-- An index that has been shifted still leads to its line. -/
theorem getElem?_insertIdx_shiftedIndex {β : Type} {xs : List β} {slot n : ℕ} (x : β) :
    (xs.insertIdx slot x)[shiftedIndex slot n]? = xs[n]? := by
  rw [shiftedIndex]
  split
  · rename_i h
    rw [List.getElem?_insertIdx_of_gt (by omega), Nat.add_sub_cancel]
  · rename_i h
    exact List.getElem?_insertIdx_of_lt (by omega)

omit [Scalar α] in
/-- Every copy is still there, with the new index of its line. -/
theorem exists_of_mem_copies_insertLine {index : ℕ} {line : Block α} {e' : Entry α}
    (he' : e' ∈ (p.insertLine index line).entries) {c' : Copy α} (hc' : c' ∈ e'.copies) :
    ∃ e ∈ p.entries, ∃ c ∈ e.copies, c' = c.shifted (min index p.lines.length) := by
  have hshifted : ∀ es ⊆ p.entries, e' ∈ es.map (Entry.shifted (min index p.lines.length)) →
      ∃ e ∈ p.entries, ∃ c ∈ e.copies, c' = c.shifted (min index p.lines.length) := by
    intro es hes he'
    obtain ⟨e, he, rfl⟩ := List.mem_map.mp he'
    obtain ⟨c, hc, rfl⟩ := List.mem_map.mp hc'
    exact ⟨e, hes he, c, hc, rfl⟩
  rw [p.entries_insertLine] at he'
  rcases List.mem_append.mp he' with he' | he'
  · exact hshifted _ (List.take_subset _ _) he'
  · rcases List.mem_cons.mp he' with rfl | he'
    · simp [Entry.ofLine] at hc'
    · exact hshifted _ (List.drop_subset _ _) he'

omit [Scalar α] in
theorem Attached.insertLine (h : p.Attached source) (index : ℕ) (line : Block α) :
    (p.insertLine index line).Attached source := by
  intro e' he' c' hc'
  obtain ⟨e, he, c, hc, rfl⟩ := exists_of_mem_copies_insertLine he' hc'
  obtain ⟨hread, hline⟩ := h e he c hc
  refine ⟨hread, ?_⟩
  rw [lines_insertLine]
  change ((p.lines.insertIdx _ line)[shiftedIndex _ c.definition]?).map _ = some c.block.text
  rw [getElem?_insertIdx_shiftedIndex, hline]

theorem Attached.amend (h : p.Attached source) (a : Amendment α) : (p.amend a).Attached source := by
  cases a with
  | insert index line => exact h.insertLine index line
  | place machine => exact h.place machine

theorem Attached.foldl_amend (h : p.Attached source) (amendments : List (Amendment α)) :
    (amendments.foldl Program.amend p).Attached source := by
  induction amendments generalizing p with
  | nil => exact h
  | cons a amendments ih => exact ih (h.amend a)

/-- Whatever is put into a program, and however often it is placed again, its lines run in their order, and every copy
belongs to the line from which it has been read. Another line runs right before the line in front of which it is put,
and nothing else changes its place. -/
theorem steps_foldl_amend (lines : List String) (settings : Settings α) (machine : Machine α)
    (amendments : List (Amendment α)) :
    let p := amendments.foldl Program.amend (ofLines lines settings machine)
    p.steps.map (Step.block? p.lines) = p.executed.map some ∧
    p.steps.filterMap Step.line? = List.range p.lines.length ∧
    (∀ c ∈ p.steps.filterMap Step.copy?, ∃ line, p.lines[c.definition]? = some line ∧ line.text = c.block.text ∧
      lines[c.block.number]? = some c.block.text) ∧
    ∀ index line, let slot := min index p.lines.length
      let q := p.insertLine index line
      q.lines = p.lines.insertIdx slot line ∧ q.steps = insertStep slot p.steps ∧
        ∃ before after, p.steps = before ++ after ∧
          after.head? = (if slot < p.lines.length then some (.line slot) else none) ∧
          q.steps = before.map (.shifted slot) ++ .line slot :: after.map (.shifted slot) := by
  intro p
  have hattached : p.Attached lines := (attached_ofLines lines settings machine).foldl_amend amendments
  refine ⟨p.map_block?_steps, ?_, ?_, ?_⟩
  · rw [steps, filterMap_line?_stepsFrom, List.range_eq_range', Program.lines, List.length_map]
  · intro c hc
    obtain ⟨e, he, hc⟩ := mem_copies_of_mem_steps hc
    obtain ⟨hread, hline⟩ := hattached e he c hc
    obtain ⟨line, hline, htext⟩ := Option.map_eq_some_iff.mp hline
    exact ⟨line, hline, htext, hread⟩
  · intro index line slot q
    obtain ⟨before, after, hsteps, -, hafter, hinserted⟩ := p.steps_insertLine index line
    exact ⟨p.lines_insertLine index line, p.steps_insertLine_eq index line, before, after, hsteps, hafter, hinserted⟩

/-- Lines that are put in after a call, in front of the line of a copy, and at the end. -/
theorem steps_foldl_amend_after_call :
    let lines := ["M98 P1", "G0 X1", "M30", "O1", "G1 X5", "M99"]
    let comment : Block Float := .inert 0 "(by hand)"
    let amendments : List (Amendment Float) :=
      [.insert 1 comment, .place .default, .insert 5 comment, .insert 99 comment]
    let p := amendments.foldl Program.amend (ofLines lines .default .default)
    p.steps.filterMap Step.line? = List.range 9 ∧
    ∃ c ∈ p.steps.filterMap Step.copy?, c.definition = 6 ∧ c.block.number = 4 ∧
      ∃ line, p.lines[c.definition]? = some line ∧ line.text = c.block.text ∧
        lines[c.block.number]? = some c.block.text := by
  intro lines comment amendments p
  have hcopies : (p.steps.filterMap Step.copy?).map (fun c => (c.definition, c.block.number)) = [(6, 4)] := by
    decide +kernel
  have hlength : p.lines.length = 9 := by decide +kernel
  obtain ⟨-, hlines, hattached, -⟩ := steps_foldl_amend lines .default .default amendments
  obtain ⟨c, hc, hnumbers⟩ := List.mem_map.mp (hcopies ▸ List.mem_singleton_self (6, 4))
  obtain ⟨hdefinition, hnumber⟩ := Prod.mk.inj hnumbers
  exact ⟨hlength ▸ hlines, c, hc, hdefinition, hnumber, hattached c hc⟩

end Program

end PartProgram
