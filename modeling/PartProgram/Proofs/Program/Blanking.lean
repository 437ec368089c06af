import PartProgram.Number.Floating
import PartProgram.Proofs.Edit.Flattening

/-! # Lines within parentheses

A program without calls keeps its calls, and what follows its end, within parentheses. A group ends at the first closing
parenthesis, so such a line is read as what its text has after one. The line has no effect if that says nothing.
-/

namespace PartProgram

open Content (split)

/-! ### What is left of a group -/

/-- What follows the first closing parenthesis. -/
def afterGroup (cs : List Char) : List Char := (cs.dropWhile (· ≠ ')')).tail

theorem afterGroup_cons (c : Char) (cs : List Char) :
    afterGroup (c :: cs) = if c = ')' then cs else afterGroup cs := by
  rw [afterGroup, List.dropWhile_cons]
  split_ifs with hopen hclose <;> simp_all [afterGroup]

theorem afterGroup_of_not_mem {cs : List Char} (h : ')' ∉ cs) : afterGroup cs = [] := by
  induction cs with
  | nil => rfl
  | cons c cs ih =>
      rw [List.mem_cons, not_or] at h
      rw [afterGroup_cons, if_neg (Ne.symm h.1), ih h.2]

theorem code_split_group (cs : List Char) : (split .group cs).code = (split .code (afterGroup cs)).code := by
  induction cs with
  | nil => rfl
  | cons c cs ih =>
      rw [split, afterGroup_cons]
      split_ifs with hclose
      · rw [Content.code_addComment, Content.code_openComment]
      · rw [Content.code_addComment, ih]

/-- The words after an opening parenthesis are those after the group. -/
theorem codeWords_group (cs : List Char) : codeWords ('(' :: cs) = codeWords (afterGroup cs) := by
  rw [codeWords, split, if_pos rfl, Content.code_addComment, code_split_group, codeWords]

theorem codeWords_group_cons {c : Char} (h : Text.isBlank c) (cs : List Char) :
    codeWords ('(' :: c :: cs) = codeWords ('(' :: cs) := by
  have hclose : c ≠ ')' := by
    rintro rfl
    exact absurd h (by decide)
  rw [codeWords_group, codeWords_group, afterGroup_cons, if_neg hclose]

theorem codeWords_group_trim (cs : List Char) : codeWords ('(' :: Text.trim cs) = codeWords ('(' :: cs) := by
  have hfront : ∀ cs : List Char, codeWords ('(' :: cs.dropWhile Text.isBlank) = codeWords ('(' :: cs) := by
    intro cs
    induction cs with
    | nil => rfl
    | cons c cs ih =>
        by_cases h : Text.isBlank c
        · rw [List.dropWhile_cons_of_pos h, ih, codeWords_group_cons h]
        · rw [List.dropWhile_cons_of_neg h]
  have hback : ∀ cs : List Char,
      codeWords ('(' :: (cs.dropWhile Text.isBlank).reverse) = codeWords ('(' :: cs.reverse) := by
    intro cs
    induction cs with
    | nil => rfl
    | cons c cs ih =>
        by_cases h : Text.isBlank c
        · rw [List.dropWhile_cons_of_pos h, ih, List.reverse_cons, ← List.cons_append, codeWords_append_of_isBlank h]
        · rw [List.dropWhile_cons_of_neg h]
  rw [Text.trim, hback, List.reverse_reverse, hfront]

/-- A parenthesis that closes no group is not part of a word. -/
theorem codeWords_append_close (cs : List Char) : codeWords (cs ++ [')']) = codeWords cs := by
  rw [codeWords]
  rcases Content.split_append_singleton .code cs ')' with hcode | hcode
  · rw [hcode, codeWords]
  · rw [hcode, Word.ofCode_append_singleton (by decide) (by decide), codeWords]

theorem enclosed_eq (before text after : String) :
    enclosed before text after = String.ofList (before.toList ++ Text.trim text.toList ++ after.toList) :=
  String.toList_inj.mp (by simp [enclosed])

/-! ### Words without effect -/

namespace Word

/-- The latest value does not depend on the first one if some word has a value. -/
theorem latest_const {β : Type} {f : Word → Option β} {ws : List Word} (h : ∃ w ∈ ws, f w ≠ none) (v v' : β) :
    latest f v ws = latest f v' ws := by
  induction ws generalizing v v' with
  | nil => simp at h
  | cons w ws ih =>
      rw [latest_cons, latest_cons]
      cases hw : f w with
      | some value => rfl
      | none => exact ih (by simpa [hw] using h) v v'

/-- Words keep every value if none of them has one. -/
theorem latest_eq_self_iff {β : Type} [Nontrivial β] {f : Word → Option β} {ws : List Word} :
    (∀ v, latest f v ws = v) ↔ ∀ w ∈ ws, f w = none := by
  refine ⟨fun h => ?_, fun h v => latest_of_none f v h⟩
  by_contra hsome
  obtain ⟨v, v', hne⟩ := exists_pair_ne β
  have hsame := latest_const (by simpa using hsome) v v'
  rw [h v, h v'] at hsame
  exact hne hsame

end Word

variable {α : Type} [Scalar α]

variable (α) in
/-- The words have no effect: they leave no coordinate and no code that steers a program, and they select no mode. -/
structure Mute (ws : List Word) : Prop where
  axes : ∀ axis : Axis, Word.latest (Word.written? α axis.letter) none ws = none
  i : Word.latest (Word.written? α 'I') none ws = none
  j : Word.latest (Word.written? α 'J') none ws = none
  call : (ws.foldl (Word.steer α) {}).call? = none
  label : (ws.foldl (Word.steer α) {}).o = none
  steering : ∀ code ∈ (ws.foldl (Word.steer α) {}).m, code ≠ 99 ∧ code ≠ 2 ∧ code ≠ 30
  modes : ∀ w ∈ ws, w.motion? α = none ∧ w.distance? α = none ∧ (w.feed? : Option α) = none ∧
    (w.spindle? : Option α) = none

theorem mute_nil : Mute α [] := ⟨fun _ => rfl, rfl, rfl, rfl, rfl, nofun, nofun⟩

variable (α) in
/-- Whatever the modes are, the line neither moves the tool nor steers the program nor changes a mode. -/
structure IsInert (line : String) : Prop where
  words : ∀ n (m : Modal α), let b := (Block.read n line m).2
    b.axes = .none ∧ b.i = none ∧ b.j = none ∧ b.call = none ∧ b.label = none ∧ b.returns = false ∧
      b.programEnd = false
  modes : ∀ n (m : Modal α), let m' := (Block.read n line m).1
    m'.motion = m.motion ∧ m'.absolute = m.absolute ∧ m'.feed = m.feed ∧ m'.spindle = m.spindle

instance : Nontrivial Motion := ⟨.unset, .rapid, by decide⟩

/-- A line is without effect if and only if its words are. -/
theorem isInert_iff [Nontrivial α] {line : String} : IsInert α line ↔ Mute α (wordsOf line) := by
  constructor
  · rintro ⟨hwords, hmodes⟩
    have hline := hwords 0 Modal.initial
    simp only [Block.read_snd, LineWords.foldl_add, LineCodes.ofLine_eq, Bool.or_eq_false_iff,
      beq_eq_false_iff_ne] at hline
    obtain ⟨haxes, hi, hj, hcall, hlabel, hreturns, hend, hend'⟩ := hline
    simp only [Block.read_fst, Modal.after] at hmodes
    have hmotion := Word.latest_eq_self_iff.mp fun v => (hmodes 0 { Modal.initial with motion := v }).1
    have hdistance := Word.latest_eq_self_iff.mp fun v => (hmodes 0 { Modal.initial with absolute := v }).2.1
    have hfeed := Word.latest_eq_self_iff.mp fun v => (hmodes 0 { Modal.initial with feed := v }).2.2.1
    have hspindle := Word.latest_eq_self_iff.mp fun v => (hmodes 0 { Modal.initial with spindle := v }).2.2.2
    refine ⟨fun axis => congrFun (congrArg AxisWords.get haxes) axis, hi, hj, hcall, hlabel, ?_, fun w hw =>
      ⟨hmotion w hw, hdistance w hw, hfeed w hw, hspindle w hw⟩⟩
    rintro code hcode
    refine ⟨?_, ?_, ?_⟩ <;> rintro rfl
    exacts [hreturns hcode, hend hcode, hend' hcode]
  · intro h
    have hsteering : ∀ code, (code = 99 ∨ code = 2 ∨ code = 30) →
        ((wordsOf line).foldl (Word.steer α) {}).m ≠ some code := by
      intro code hcode hm
      obtain ⟨h99, h2, h30⟩ := h.steering code hm
      rcases hcode with rfl | rfl | rfl <;> contradiction
    refine ⟨fun n m => ?_, fun n m => ?_⟩
    · simp only [Block.read_snd, LineWords.foldl_add, LineCodes.ofLine_eq, Bool.or_eq_false_iff,
        beq_eq_false_iff_ne]
      exact ⟨AxisWords.ext h.axes, h.i, h.j, h.call, h.label, hsteering 99 (by simp), hsteering 2 (by simp),
        hsteering 30 (by simp)⟩
    · simp only [Block.read_fst, Modal.after]
      exact ⟨Word.latest_of_none _ _ fun w hw => (h.modes w hw).1,
        Word.latest_of_none _ _ fun w hw => (h.modes w hw).2.1,
        Word.latest_of_none _ _ fun w hw => (h.modes w hw).2.2.1,
        Word.latest_of_none _ _ fun w hw => (h.modes w hw).2.2.2⟩

/-- A line that is left as a comment is read as what its text has after the first closing parenthesis. -/
theorem Program.wordsOf_flattenLine {b : Block α} (h : b.isBlanked = true) :
    wordsOf (flattenLine b).text = codeWords (afterGroup b.text.toList) := by
  have hline : ∀ cs : List Char, wordsOf (String.ofList ('(' :: cs)) = codeWords ('(' :: cs) := by
    intro cs
    obtain ⟨rest, hrest⟩ := Text.trim_cons_of_not_isBlank (by decide : Text.isBlank '(' = false) cs
    exact wordsOf_ofList (by simp [hrest])
  rw [← codeWords_group, flattenLine]
  have hblank : Text.isBlank ' ' = true := by decide
  split
  · have htext : enclosed "( " b.text " )" =
        String.ofList ('(' :: ' ' :: (Text.trim b.text.toList ++ [' '] ++ [')'])) := by
      rw [enclosed_eq, List.append_assoc _ [' ']]
      rfl
    change wordsOf (enclosed "( " b.text " )") = _
    rw [htext, hline, codeWords_group_cons hblank, ← List.cons_append, codeWords_append_close, ← List.cons_append,
      codeWords_append_of_isBlank hblank, codeWords_group_trim]
  · rename_i hend
    have hcall : b.call.isSome = true := by simpa [Block.isBlanked, hend] using h
    have htext : enclosed "(" b.text ")" = String.ofList ('(' :: (Text.trim b.text.toList ++ [')'])) := enclosed_eq ..
    rw [if_pos hcall]
    change wordsOf (enclosed "(" b.text ")") = _
    rw [htext, hline, ← List.cons_append, codeWords_append_close, codeWords_group_trim]

/-- In a program without calls, the line that stands for a call or follows the end of the program is read as what the
text has after its first closing parenthesis. It has no effect under any modes if and only if those words have none; so
it has none if there is no such parenthesis. -/
theorem Program.inert_flattened_iff [Nontrivial α] (text : String) (settings : Settings α) (machine : Machine α) :
    let p := read text settings machine
    List.Forall₂ (fun b b' => b.isBlanked = true →
      wordsOf b'.text = codeWords (afterGroup b.text.toList) ∧
        (IsInert α b'.text ↔ Mute α (codeWords (afterGroup b.text.toList))) ∧
        (')' ∉ b.text.toList → IsInert α b'.text)) p.executed p.flattened := by
  intro p
  have hflattened : p.flattened = p.executed.map flattenLine := flattened_ofLines (Text.lines text) settings machine
  rw [hflattened, List.forall₂_map_right_iff, List.forall₂_same]
  intro b _ hblanked
  have hwords := wordsOf_flattenLine hblanked
  have hinert : IsInert α (flattenLine b).text ↔ Mute α (codeWords (afterGroup b.text.toList)) := by
    rw [isInert_iff, hwords]
  refine ⟨hwords, hinert, fun hclose => hinert.mpr ?_⟩
  rw [afterGroup_of_not_mem hclose]
  exact mute_nil

/-- A line with a comment in front of its call still calls when it stands within parentheses. A line that ends with its
comment is nothing but a comment. -/
theorem Program.not_inert_commented_call :
    let p : Program Float := read "(drill) M98 P1\nM30\nG0 X1 (home)\n" .default .default
    (p.flattened[0]?.map (·.text) = some "((drill) M98 P1)" ∧ ¬∀ b ∈ p.flattened[0]?, IsInert Float b.text) ∧
      p.flattened[2]?.map (·.text) = some "( G0 X1 (home) )" ∧ ∀ b ∈ p.flattened[2]?, IsInert Float b.text := by
  intro p
  have : Nontrivial Float := ⟨0, 1, fun h => absurd (congrArg Float.toBits h) (by decide +kernel)⟩
  have hexecuted : p.executed.map (fun b => (b.isBlanked, b.text)) =
      [(true, "(drill) M98 P1"), (false, "M30"), (true, "G0 X1 (home)")] := by decide +kernel
  have hblanked : ∀ {n : ℕ} {text : String},
      (p.executed.map fun b => (b.isBlanked, b.text))[n]? = some (true, text) →
      ∃ b' : Block Float, p.flattened[n]? = some b' ∧
        (IsInert Float b'.text ↔ Mute Float (codeWords (afterGroup text.toList))) := by
    intro n text h
    obtain ⟨b, hb, heq⟩ := Option.map_eq_some_iff.mp (List.getElem?_map ▸ h)
    obtain ⟨hblanked, rfl⟩ := Prod.mk.inj heq
    obtain ⟨b', hb', hinert⟩ := exists_getElem?_of_forall₂
      (inert_flattened_iff (α := Float) "(drill) M98 P1\nM30\nG0 X1 (home)\n" .default .default) hb
    exact ⟨b', hb', (hinert hblanked).2.1⟩
  obtain ⟨call, hcall, hcalls⟩ := hblanked (congrArg (·[0]?) hexecuted)
  obtain ⟨home, hhome, hrests⟩ := hblanked (congrArg (·[2]?) hexecuted)
  refine ⟨⟨by decide +kernel, ?_⟩, by decide +kernel, ?_⟩
  · rw [hcall]
    intro h
    have hnone := (hcalls.mp (h call rfl)).call
    exact absurd hnone (by decide +kernel)
  · rw [hhome]
    rintro _ ⟨⟩
    have hwords : codeWords (afterGroup "G0 X1 (home)".toList) = [] := by decide +kernel
    exact hrests.mpr (hwords ▸ mute_nil)

end PartProgram
