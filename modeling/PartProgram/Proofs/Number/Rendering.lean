import Mathlib.Algebra.Group.Nat.Defs
import Mathlib.Data.List.TakeWhile
import PartProgram.Block.Reading
import PartProgram.Block.Writing
import PartProgram.Proofs.Text.Lines

/-! # Numbers as texts

The text of a number is a plain numeral, whatever zeros are left out, and it is read back as the
number of last places that it was made of.
-/

namespace PartProgram

/-! ### Numerals -/

namespace Decimal

theorem valueOf_eq (cs : List Char) : valueOf cs = Nat.ofDigitChars 10 cs 0 := rfl

theorem valueOf_append (xs ys : List Char) :
    valueOf (xs ++ ys) = valueOf xs * 10 ^ ys.length + valueOf ys := by
  rw [valueOf_eq, Nat.ofDigitChars_append, Nat.ofDigitChars_eq_ofDigitChars_zero, Nat.mul_comm]
  rfl

@[simp]
theorem valueOf_replicate_zero (n : ℕ) : valueOf (List.replicate n '0') = 0 := by
  simp [valueOf_eq]

@[simp]
theorem valueOf_toDigits (n : ℕ) : valueOf (Nat.toDigits 10 n) = n := by
  simp [valueOf_eq]

/-- A fraction with its point; nothing if there is no fraction. -/
def pointed : List Char → List Char
  | [] => []
  | cs => '.' :: cs

/-- A plain numeral: the digits before and after the point, some of them at least. -/
structure IsNumeral (cs whole fraction : List Char) : Prop where
  text : cs = whole ++ pointed fraction
  digits : ∀ c ∈ whole ++ fraction, c.isDigit
  nonempty : whole ++ fraction ≠ []

theorem mem_pointed {fraction : List Char} {c : Char} (h : c ∈ pointed fraction) :
    c = '.' ∨ c ∈ fraction := by
  cases fraction with
  | nil => simp [pointed] at h
  | cons d ds => simpa [pointed] using h

namespace IsNumeral

variable {cs whole fraction : List Char} (h : IsNumeral cs whole fraction)

include h

theorem isDigit_or_eq : ∀ c ∈ cs, c.isDigit ∨ c = '.' := by
  intro c hc
  rw [h.text] at hc
  rcases List.mem_append.mp hc with hc | hc
  · exact .inl (h.digits c (by simp [hc]))
  · rcases mem_pointed hc with rfl | hc
    · exact .inr rfl
    · exact .inl (h.digits c (by simp [hc]))

theorem splitSign_eq : splitSign cs = (false, cs) := by
  have hsign : ∀ c ∈ cs, c ≠ '-' ∧ c ≠ '+' := by
    intro c hc
    rcases h.isDigit_or_eq c hc with hdigit | rfl
    · constructor <;> rintro rfl <;> simp at hdigit
    · decide
  rw [splitSign]
  · rintro ds rfl
    exact (hsign '-' (by simp)).1 rfl
  · rintro ds rfl
    exact (hsign '+' (by simp)).2 rfl

theorem read?_of_splitSign {ds : List Char} {negative : Bool} (hsign : splitSign ds = (negative, cs)) :
    read? ds = some ⟨negative, valueOf (whole ++ fraction), -(fraction.length : ℤ)⟩ := by
  have hwhole : ∀ c ∈ whole, c.isDigit := fun c hc => h.digits c (by simp [hc])
  have hfraction : ∀ c ∈ fraction, c.isDigit := fun c hc => h.digits c (by simp [hc])
  have htake : cs.takeWhile Char.isDigit = whole := by
    rw [h.text, List.takeWhile_append_of_pos hwhole]
    cases fraction <;> simp [pointed]
  have hdrop : cs.dropWhile Char.isDigit = pointed fraction := by
    rw [h.text, List.dropWhile_append_of_pos hwhole]
    cases fraction <;> simp [pointed]
  have hsplit : splitFraction (pointed fraction) = (fraction, []) := by
    cases hf : fraction with
    | nil => rfl
    | cons c cs =>
        rw [hf] at hfraction
        rw [pointed, splitFraction, List.takeWhile_eq_self_iff.mpr hfraction,
          List.dropWhile_eq_nil_iff.mpr hfraction]
        simp
  have hne : (whole.isEmpty && fraction.isEmpty) = false := by
    have hnonempty := h.nonempty
    cases whole <;> cases fraction <;> simp_all
  simp [read?, hsign, htake, hdrop, hsplit, hne, readExponent?]

end IsNumeral

end Decimal

/-! ### The digits of a number of last places -/

/-- The numeral for a count of last places that writes all of them. -/
def Decimal.ofTicks (places : ℕ) (n : ℤ) : Decimal := ⟨decide (n < 0), n.natAbs, -places⟩

namespace NumberFormat

open Decimal (IsNumeral pointed valueOf)

/-- The digits of a number of last places, split at the point. -/
theorem isNumeral_fixedDigits (places n : ℕ) :
    ∃ whole fraction, IsNumeral (fixedDigits places n) whole fraction ∧ whole ≠ [] ∧
      fraction.length = places ∧ valueOf (whole ++ fraction) = n := by
  have hdigits : (toString n).toList = Nat.toDigits 10 n := by simp
  set padded := List.replicate (places + 1 - (toString n).toList.length) '0' ++ (toString n).toList
    with hpadded
  have hvalue : valueOf padded = n := by
    rw [hpadded, Decimal.valueOf_append, hdigits]
    simp
  have hall : ∀ c ∈ padded, c.isDigit := by
    intro c hc
    rw [hpadded, hdigits] at hc
    rcases List.mem_append.mp hc with hc | hc
    · rw [List.eq_of_mem_replicate hc]
      decide
    · exact Nat.isDigit_of_mem_toDigits (by decide) (by decide) hc
  have hlength : places + 1 ≤ padded.length := by
    rw [hpadded, List.length_append, List.length_replicate]
    omega
  by_cases hzero : places = 0
  · subst hzero
    have hne : padded ≠ [] := List.ne_nil_of_length_pos (by omega)
    refine ⟨padded, [], ⟨?_, by simpa using hall, by simpa using hne⟩, hne, rfl, by simpa using hvalue⟩
    simp only [fixedDigits, if_true, pointed, List.append_nil]
    exact hpadded.symm
  · have hfraction : (padded.drop (padded.length - places)).length = places := by
      rw [List.length_drop]
      omega
    have hne : padded.take (padded.length - places) ≠ [] := by
      apply List.ne_nil_of_length_pos
      rw [List.length_take]
      omega
    refine ⟨_, _, ⟨?_, ?_, ?_⟩, hne, hfraction, ?_⟩
    · simp only [fixedDigits, ← hpadded, if_neg hzero]
      cases hd : padded.drop (padded.length - places) with
      | nil =>
          rw [hd] at hfraction
          exact absurd hfraction.symm hzero
      | cons c cs => rfl
    · rwa [List.take_append_drop]
    · rw [List.take_append_drop]
      exact List.ne_nil_of_length_pos (by omega)
    · rwa [List.take_append_drop]

theorem isNumeral_dropTrailingZeros {cs whole fraction : List Char} (h : IsNumeral cs whole fraction)
    (hwhole : whole ≠ []) :
    ∃ fraction' k, IsNumeral (dropTrailingZeros cs) whole fraction' ∧
      fraction = fraction' ++ List.replicate k '0' := by
  have hdigit : ∀ c ∈ whole ++ fraction, c ≠ '.' := by
    rintro c hc rfl
    simpa using h.digits _ hc
  by_cases hnil : fraction = []
  · subst hnil
    have hpoint : '.' ∉ cs := by
      rw [h.text]
      intro hmem
      exact hdigit '.' (by simpa [pointed] using hmem) rfl
    refine ⟨[], 0, ?_, rfl⟩
    rw [dropTrailingZeros, if_neg (by simpa using hpoint)]
    exact h
  · have htext : cs = whole ++ '.' :: fraction := by
      rw [h.text]
      cases fraction with
      | nil => simp at hnil
      | cons c cs => rfl
    set zeros := fraction.reverse.takeWhile (· = '0') with hzeros
    set rest := fraction.reverse.dropWhile (· = '0') with hrest
    have hsplit : fraction = rest.reverse ++ List.replicate zeros.length '0' := by
      have hz : zeros = List.replicate zeros.length '0' := by
        apply List.eq_replicate_of_mem
        intro c hc
        simpa using List.mem_takeWhile_imp hc
      rw [← List.reverse_replicate, ← hz, ← List.reverse_append, hzeros, hrest,
        List.takeWhile_append_dropWhile, List.reverse_reverse]
    refine ⟨rest.reverse, zeros.length, ⟨?_, ?_, ?_⟩, hsplit⟩
    · have hkeep : ∀ ds : List Char, (∀ c ∈ ds, c ≠ '.') → ds.dropWhile (· = '.') = ds := by
        intro ds hds
        cases ds with
        | nil => rfl
        | cons d ds => simp [hds d (by simp)]
      have hreverse : cs.reverse = fraction.reverse ++ '.' :: whole.reverse := by
        simp [htext]
      rw [dropTrailingZeros, if_pos (by simp [htext]), hreverse, List.dropWhile_append, ← hrest]
      cases hr : rest with
      | nil => simp [pointed, hkeep whole.reverse (by simpa using fun c hc => hdigit c (by simp [hc]))]
      | cons c rest' =>
          have hc : c ≠ '.' := hdigit c (by
            have hmem : c ∈ rest.reverse := by simp [hr]
            rw [List.mem_append, hsplit]
            exact .inr (by simp [hmem]))
          cases hrr : (c :: rest').reverse with
          | nil => simp at hrr
          | cons d ds => simp [hc, pointed, ← hrr]
    · intro c hc
      refine h.digits c ?_
      rw [hsplit]
      rw [← List.append_assoc]
      exact List.mem_append.mpr (.inl hc)
    · simp [hwhole]

theorem isNumeral_dropLeadingZero {cs whole fraction : List Char} (h : IsNumeral cs whole fraction) :
    ∃ whole', IsNumeral (dropLeadingZero cs) whole' fraction ∧
      valueOf (whole' ++ fraction) = valueOf (whole ++ fraction) := by
  rw [dropLeadingZero.eq_def]
  split
  · rename_i cs
    have hdigit : '.' ∉ whole := fun hmem => by simpa using h.digits '.' (by simp [hmem])
    have htext := h.text
    rcases whole with _ | ⟨c, _ | ⟨d, ds⟩⟩
    · cases fraction <;> simp [pointed] at htext
    · obtain ⟨rfl, hpointed⟩ : '0' = c ∧ '.' :: cs = pointed fraction := by simpa using htext
      refine ⟨[], ⟨by simpa using hpointed, ?_, ?_⟩, ?_⟩
      · exact fun c hc => h.digits c (List.mem_cons_of_mem _ hc)
      · rintro rfl
        simp [pointed] at hpointed
      · simp [Decimal.valueOf]
    · obtain ⟨-, rfl, -⟩ : '0' = c ∧ '.' = d ∧ cs = ds ++ pointed fraction := by simpa using htext
      simp at hdigit
  · exact ⟨whole, h, rfl⟩

/-- The text of a number of last places, without its sign, is a numeral: `m` last places of which
`k` are written. -/
theorem isNumeral_ofTicks (format : NumberFormat) (n : ℤ) :
    ∃ cs whole fraction k, IsNumeral cs whole fraction ∧
      format.ofTicks n = (if n < 0 then '-' :: cs else cs) ∧
      fraction.length + k = format.decimalPlaces ∧
      valueOf (whole ++ fraction) * 10 ^ k = n.natAbs := by
  obtain ⟨whole, fraction, hnumeral, hwhole, hlength, hvalue⟩ :=
    isNumeral_fixedDigits format.decimalPlaces n.natAbs
  -- Zeros that are left out at the end count in `k`.
  obtain ⟨cs₁, fraction₁, k, hdropped, h₁, hk⟩ : ∃ cs₁ fraction₁ k,
      (if format.stripTrailingZeros then
        dropTrailingZeros (fixedDigits format.decimalPlaces n.natAbs)
      else fixedDigits format.decimalPlaces n.natAbs) = cs₁ ∧
      IsNumeral cs₁ whole fraction₁ ∧ fraction = fraction₁ ++ List.replicate k '0' := by
    split
    · obtain ⟨fraction₁, k, h₁, hk⟩ := isNumeral_dropTrailingZeros hnumeral hwhole
      exact ⟨_, fraction₁, k, rfl, h₁, hk⟩
    · exact ⟨_, fraction, 0, rfl, hnumeral, by simp⟩
  obtain ⟨cs₂, whole₂, hleading, h₂, hvalue₂⟩ : ∃ cs₂ whole₂,
      (if format.leadingZeroSuppression then dropLeadingZero cs₁ else cs₁) = cs₂ ∧
      IsNumeral cs₂ whole₂ fraction₁ ∧
      valueOf (whole₂ ++ fraction₁) = valueOf (whole ++ fraction₁) := by
    split
    · obtain ⟨whole₂, h₂, hvalue₂⟩ := isNumeral_dropLeadingZero h₁
      exact ⟨_, whole₂, rfl, h₂, hvalue₂⟩
    · exact ⟨_, whole, rfl, h₁, rfl⟩
  refine ⟨cs₂, whole₂, fraction₁, k, h₂, ?_, ?_, ?_⟩
  · simp only [ofTicks, hdropped, hleading]
  · rw [← hlength, hk, List.length_append, List.length_replicate]
  · rw [hvalue₂, ← hvalue, hk, ← List.append_assoc, Decimal.valueOf_append (whole ++ fraction₁)]
    simp

/-- The text of a number of last places is read back as this number: `m` last places of which `k`
are written. -/
theorem read?_ofTicks (format : NumberFormat) (n : ℤ) :
    ∃ m k j : ℕ, Decimal.read? (format.ofTicks n) = some ⟨decide (n < 0), m, -(k : ℤ)⟩ ∧
      k + j = format.decimalPlaces ∧ m * 10 ^ j = n.natAbs := by
  obtain ⟨cs, whole, fraction, j, h, htext, hlength, hvalue⟩ := format.isNumeral_ofTicks n
  refine ⟨_, fraction.length, j, ?_, hlength, hvalue⟩
  apply h.read?_of_splitSign
  rw [htext]
  by_cases hn : n < 0
  · simp [hn, Decimal.splitSign]
  · simp [hn, h.splitSign_eq]

theorem isValueChar_ofTicks (format : NumberFormat) (n : ℤ) :
    ∀ c ∈ format.ofTicks n, Word.isValueChar c := by
  obtain ⟨cs, whole, fraction, j, h, htext, -⟩ := format.isNumeral_ofTicks n
  have hcs : ∀ c ∈ cs, Word.isValueChar c := by
    intro c hc
    rcases h.isDigit_or_eq c hc with hc | hc <;> simp [Word.isValueChar, hc]
  intro c hc
  rw [htext] at hc
  split at hc
  · rcases List.mem_cons.mp hc with rfl | hc
    · rfl
    · exact hcs c hc
  · exact hcs c hc

theorem render_of_ticks {α : Type} [Scalar α] {format : NumberFormat} {v : α} {n : ℤ}
    (h : Scalar.ticks format.decimalPlaces v = .count n) : format.render v = String.ofList (format.ofTicks n) := by
  rw [render, h]

theorem isLine_render {α : Type} [Scalar α] (format : NumberFormat) (v : α) :
    Text.IsLine (format.render v) := by
  rw [render]
  split
  · rename_i n _
    apply Text.isLine_ofList
    intro c hc
    have hchar := format.isValueChar_ofTicks n c hc
    constructor <;> rintro rfl <;> simp [Word.isValueChar] at hchar
  · simp [Text.IsLine]
  · simp [Text.IsLine]

end NumberFormat

end PartProgram
