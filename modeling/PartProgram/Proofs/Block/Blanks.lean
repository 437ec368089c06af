import Mathlib.Data.List.TakeWhile
import PartProgram.Proofs.Block.SingleLine

/-! # Blanks around a line

Blanks around a line do not matter for its words, and neither does a carriage return at its end.
-/

namespace PartProgram

open Content (Zone split)

/-! ### Letters and blanks -/

theorem isUpper_iff {c : Char} : c.isUpper ↔ 65 ≤ c.toNat ∧ c.toNat ≤ 90 := by
  change decide (c.val ≥ 65 ∧ c.val ≤ 90) ↔ _
  simp [UInt32.le_iff_toNat_le]

theorem isLower_iff {c : Char} : c.isLower ↔ 97 ≤ c.toNat ∧ c.toNat ≤ 122 := by
  change (decide (c.val ≥ 97) && decide (c.val ≤ 122)) ↔ _
  simp [UInt32.le_iff_toNat_le]

theorem isAlpha_eq (c : Char) : c.isAlpha = (c.isUpper || c.isLower) := rfl

theorem toUpper_of_not_isLower {c : Char} (h : c.isLower = false) : c.toUpper = c := by
  refine dif_neg fun hrange => ?_
  rw [← Bool.not_eq_true, isLower_iff] at h
  exact h hrange

theorem isUpper_toUpper {c : Char} (h : c.toUpper.isAlpha) : c.toUpper.isUpper := by
  cases hl : c.isLower with
  | false =>
      rw [toUpper_of_not_isLower hl] at h ⊢
      rwa [isAlpha_eq, hl, Bool.or_false] at h
  | true =>
      have hrange := isLower_iff.mp hl
      have hval : 'a'.val ≤ c.val ∧ c.val ≤ 'z'.val := hrange
      unfold Char.toUpper
      rw [dif_pos hval, isUpper_iff]
      simp [UInt32.toNat_add]
      omega

/-- Blanks belong to no word, and open no comment. -/
theorem not_isAlpha_of_isBlank {c : Char} (h : Text.isBlank c) :
    c.toUpper = c ∧ c.isAlpha = false ∧ Word.isValueChar c = false ∧ c ≠ '(' ∧ c ≠ ';' ∧ c ≠ '%' := by
  simp only [Text.isBlank, Bool.or_eq_true, Bool.and_eq_true, decide_eq_true_eq, beq_iff_eq] at h
  have hne : ∀ d : Char, d.toNat ≠ c.toNat → c ≠ d := by
    rintro d hd rfl
    exact hd rfl
  have hupper : c.isUpper = false := by
    rw [← Bool.not_eq_true, isUpper_iff]
    omega
  have hlower : c.isLower = false := by
    rw [← Bool.not_eq_true, isLower_iff]
    omega
  have hvalue : c ≠ '.' ∧ c ≠ '-' ∧ c ≠ '+' := by
    refine ⟨hne _ ?_, hne _ ?_, hne _ ?_⟩ <;> simp <;> omega
  have hdigit : c.isDigit = false := by
    simp [Char.isDigit, UInt32.le_iff_toNat_le]
    omega
  refine ⟨toUpper_of_not_isLower hlower, ?_, ?_, hne _ ?_, hne _ ?_, hne _ ?_⟩
  · simp [isAlpha_eq, hupper, hlower]
  · simp [Word.isValueChar, hdigit, hvalue]
  all_goals
    simp
    omega

/-! ### Blanks around a line -/

theorem Word.ofCode_append_singleton {cs : List Char} {c : Char} (halpha : c.isAlpha = false)
    (hc : isValueChar c = false) : ofCode (cs ++ [c]) = ofCode cs := by
  have hvalue : ∀ cs : List Char, ((cs ++ [c]).dropWhile (· = ' ')).takeWhile isValueChar =
      (cs.dropWhile (· = ' ')).takeWhile isValueChar := by
    intro cs
    rw [List.dropWhile_append]
    split
    · rename_i h
      have hnil : cs.dropWhile (· = ' ') = [] := by simpa using h
      by_cases hblank : c = ' ' <;> simp [hnil, hblank, hc]
    · rw [List.takeWhile_append]
      split
      · rw [List.takeWhile_cons_of_neg (by simp [hc]), List.append_nil]
        rename_i h
        exact ((List.takeWhile_prefix _).eq_of_length h).symm
      · rfl
  induction cs with
  | nil => simp [ofCode, halpha]
  | cons d cs ih => rw [List.cons_append, ofCode, ofCode, ih, hvalue]

namespace Content

@[simp]
theorem code_addComment (c : Char) (content : Content) : (content.addComment c).code = content.code := by
  rw [addComment]
  split <;> rfl

@[simp]
theorem code_openComment (content : Content) : content.openComment.code = content.code := rfl

/-- One more character at the end of a line is code or part of a comment. -/
theorem split_append_singleton (zone : Zone) (cs : List Char) (c : Char) :
    (split zone (cs ++ [c])).code = (split zone cs).code ∨
      (split zone (cs ++ [c])).code = (split zone cs).code ++ [c.toUpper] := by
  fun_induction split zone cs with
  | case1 =>
      by_cases hparen : c = '('
      · simp [split, hparen, empty]
      · by_cases hsemicolon : c = ';' <;>
          simp [split, hparen, hsemicolon, empty, addCode]
  | case2 =>
      left
      by_cases hclose : c = ')' <;> simp [split, hclose, empty]
  | case3 => simp [split, empty]
  | case4 cs ih => simpa [split] using ih
  | case5 cs _ ih => simpa [split] using ih
  | case6 d cs hparen hsemicolon ih => simpa [split, hparen, hsemicolon, addCode] using ih
  | case7 cs ih => simpa [split] using ih
  | case8 d cs hclose ih => simpa [split, hclose] using ih
  | case9 d cs ih => simpa [split] using ih

end Content

/-- The words of the code among some characters. -/
def codeWords (cs : List Char) : List Word := Word.ofCode (split .code cs).code

theorem codeWords_cons_of_isBlank {c : Char} (h : Text.isBlank c) (cs : List Char) :
    codeWords (c :: cs) = codeWords cs := by
  obtain ⟨hupper, halpha, -, hparen, hsemicolon, -⟩ := not_isAlpha_of_isBlank h
  simp [codeWords, split, hparen, hsemicolon, Content.addCode, Word.ofCode, hupper, halpha]

theorem codeWords_append_of_isBlank {c : Char} (h : Text.isBlank c) (cs : List Char) :
    codeWords (cs ++ [c]) = codeWords cs := by
  obtain ⟨hupper, halpha, hvalue, -⟩ := not_isAlpha_of_isBlank h
  rw [codeWords]
  rcases Content.split_append_singleton .code cs c with hcode | hcode
  · rw [hcode, codeWords]
  · rw [hcode, hupper, Word.ofCode_append_singleton halpha hvalue, codeWords]

theorem codeWords_trim (cs : List Char) : codeWords (Text.trim cs) = codeWords cs := by
  have hfront : ∀ cs : List Char, codeWords (cs.dropWhile Text.isBlank) = codeWords cs := by
    intro cs
    induction cs with
    | nil => rfl
    | cons c cs ih =>
        by_cases h : Text.isBlank c
        · rw [List.dropWhile_cons_of_pos h, ih, codeWords_cons_of_isBlank h]
        · rw [List.dropWhile_cons_of_neg h]
  have hback : ∀ cs : List Char,
      codeWords ((cs.dropWhile Text.isBlank).reverse) = codeWords cs.reverse := by
    intro cs
    induction cs with
    | nil => rfl
    | cons c cs ih =>
        by_cases h : Text.isBlank c
        · rw [List.dropWhile_cons_of_pos h, ih, List.reverse_cons, codeWords_append_of_isBlank h]
        · rw [List.dropWhile_cons_of_neg h]
  rw [Text.trim, hback, List.reverse_reverse, hfront]

theorem Text.trim_cons_of_not_isBlank {c : Char} (h : isBlank c = false) (cs : List Char) :
    ∃ rest, trim (c :: cs) = c :: rest := by
  rw [trim, List.dropWhile_cons_of_neg (by simp [h]), List.reverse_cons, List.dropWhile_append]
  split
  · refine ⟨[], ?_⟩
    rw [List.dropWhile_cons_of_neg (by simp [h])]
    rfl
  · exact ⟨(cs.reverse.dropWhile isBlank).reverse, by simp⟩

/-- A line that does not start with a percent sign has the words of its code. -/
theorem wordsOf_ofList {cs : List Char} (h : (Text.trim cs).head? ≠ some '%') :
    wordsOf (String.ofList cs) = codeWords cs := by
  rw [wordsOf, Content.ofLine, String.toList_ofList]
  split
  · rename_i rest hrest
    simp [hrest] at h
  · rw [← codeWords_trim, codeWords]

theorem Text.trim_dropReturn (cs : List Char) : trim (dropReturn cs) = trim cs := by
  rw [dropReturn]
  split
  · rename_i hlast
    obtain ⟨init, rfl⟩ := List.getLast?_eq_some_iff.mp hlast
    have hreturn : isBlank '\r' = true := by decide
    rw [List.dropLast_concat, trim, trim, List.dropWhile_append]
    split
    · rename_i hnil
      have hnil : init.dropWhile isBlank = [] := by simpa using hnil
      simp [hnil, hreturn]
    · simp [hreturn]
  · rfl

/-- A carriage return at the end of a line does not matter. -/
theorem Content.ofLine_dropReturn (line : String) :
    ofLine (String.ofList (Text.dropReturn line.toList)) = ofLine line := by
  rw [ofLine, ofLine, String.toList_ofList, Text.trim_dropReturn]

end PartProgram
