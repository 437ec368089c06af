import Mathlib.Data.List.TakeWhile
import PartProgram.Block.Writing
import PartProgram.Proofs.Block.Words
import PartProgram.Proofs.Number.Rendering
import PartProgram.Proofs.Text.Lines

/-! # Blocks on single lines

What is read off a single line is written on a single line again.
-/

namespace PartProgram

open Text (IsLine isLine_ofList isLine_intercalate)

variable {α : Type}

/-! ### Words -/

theorem Word.ofCode_chars {cs : List Char} {w : Word} (h : w ∈ Word.ofCode cs) :
    w.letter.isAlpha ∧ ∀ c ∈ w.value, Word.isValueChar c := by
  induction cs with
  | nil => simp [Word.ofCode] at h
  | cons c cs ih =>
      rw [Word.ofCode] at h
      split at h
      · rcases List.mem_cons.mp h with rfl | h
        · refine ⟨by assumption, ?_⟩
          intro c hc
          exact List.mem_takeWhile_imp hc
        · exact ih h
      · exact ih h

theorem isLine_of_valueChars {cs : List Char} (h : ∀ c ∈ cs, Word.isValueChar c) :
    IsLine (String.ofList cs) := by
  apply isLine_ofList
  intro c hc
  have hchar := h c hc
  constructor <;> rintro rfl <;> simp [Word.isValueChar] at hchar

theorem isLine_of_isAlpha {c : Char} (h : c.isAlpha) : IsLine c.toString := by
  intro d hd
  obtain rfl : d = c := by simpa using hd
  constructor <;> rintro rfl <;> simp at h

theorem Word.isLine_text {w : Word} {cs : List Char} (h : w ∈ Word.ofCode cs) : IsLine w.text := by
  obtain ⟨hletter, hvalue⟩ := Word.ofCode_chars h
  have hsplit : w.text = w.letter.toString ++ String.ofList w.value := by
    simp [Word.text]
  rw [hsplit]
  exact (isLine_of_isAlpha hletter).append (isLine_of_valueChars hvalue)

/-! ### Comments -/

namespace Content

/-- The comments, flattened, are made of characters of the line. -/
theorem flatten_comments_split (zone : Zone) (cs : List Char) :
    (split zone cs).comments.flatten ⊆ cs := by
  have hadd : ∀ (c : Char) (cs : List Char) (content : Content), content.comments.flatten ⊆ cs →
      (content.addComment c).comments.flatten ⊆ c :: cs := by
    intro c cs content h
    rw [addComment]
    split <;> simp_all
  have hskip : ∀ (c : Char) (cs ds : List Char), ds ⊆ cs → ds ⊆ c :: cs := fun c cs ds h =>
    List.subset_cons_of_subset c h
  fun_induction split zone cs with
  | case1 => simp [empty]
  | case2 => simp [empty, openComment]
  | case3 => simp [empty, openComment]
  | case4 cs ih => exact hadd _ _ _ ih
  | case5 cs _ ih => exact hadd _ _ _ ih
  | case6 c cs _ _ ih => exact hskip _ _ _ ih
  | case7 cs ih => exact hadd _ _ _ (by simpa [openComment] using ih)
  | case8 c cs _ ih => exact hadd _ _ _ ih
  | case9 c cs ih => exact hadd _ _ _ ih

theorem mem_of_mem_trim {cs : List Char} {c : Char} (h : c ∈ Text.trim cs) : c ∈ cs := by
  rw [Text.trim, List.mem_reverse] at h
  exact (List.dropWhile_sublist _).subset
    (List.mem_reverse.mp ((List.dropWhile_sublist _).subset h))

theorem subset_of_mem_comments {line : String} {comment : List Char}
    (h : comment ∈ (ofLine line).comments) : comment ⊆ line.toList := by
  rw [ofLine] at h
  split at h
  · simp [empty] at h
  · intro c hc
    exact mem_of_mem_trim (flatten_comments_split _ _ (List.mem_flatten.mpr ⟨comment, h, hc⟩))

theorem isLine_comment? {line : String} (h : IsLine line) :
    ∀ text ∈ (ofLine line).comment?, IsLine text := by
  intro text htext
  rw [comment?] at htext
  split at htext
  · simp at htext
  · obtain rfl : " ".intercalate ((ofLine line).comments.map String.ofList) = text := by
      simpa using htext
    apply isLine_intercalate
    intro text htext
    obtain ⟨comment, hcomment, rfl⟩ := List.mem_map.mp htext
    exact isLine_ofList fun c hc => h c (subset_of_mem_comments hcomment hc)

end Content

/-! ### Blocks -/

/-- The texts of the words that have no part in the path, and of the comments. -/
def ExtraWords.texts (extra : ExtraWords) : List String :=
  extra.sequence.toList ++ extra.gWords ++ extra.others ++ extra.comment.toList

/-- The block comes from a single line: it holds no character of a line end. -/
structure Block.SingleLine (b : Block α) : Prop where
  text : IsLine b.text
  extra : ∀ text ∈ b.extra.texts, IsLine text

namespace Block

variable [Scalar α]

/-- Only a comment can hold what stands on a line. -/
theorem isLine_or_mem_comment? (number : ℕ) (line : String) (m : Modal α) :
    ∀ text ∈ (read number line m).2.extra.texts, IsLine text ∨ text ∈ (Content.ofLine line).comment? := by
  have hword : ∀ w ∈ wordsOf line, IsLine w.text := fun w hw => Word.isLine_text hw
  rw [read_snd, LineWords.foldl_add]
  intro text htext
  simp only [ExtraWords.texts, List.mem_append, Option.mem_toList, List.nil_append, List.mem_map,
    List.mem_filter] at htext
  rcases htext with ((hseq | ⟨w, ⟨hw, -⟩, rfl⟩) | ⟨w, ⟨hw, -⟩, rfl⟩) | hcomment
  · rcases Word.latest_eq_or Word.sequence? none (wordsOf line) with hnone | ⟨w, hw, hlatest⟩
    · simp [hnone] at hseq
    · rw [hseq, Word.sequence?] at hlatest
      split at hlatest
      · obtain rfl : w.text = text := by simpa using hlatest
        exact .inl (hword w hw)
      · simp at hlatest
  · exact .inl (hword w hw)
  · exact .inl (hword w hw)
  · exact .inr hcomment

theorem singleLine_read {line : String} (h : IsLine line) (number : ℕ) (m : Modal α) :
    (read number line m).2.SingleLine := by
  refine ⟨by simpa [read_snd, inert] using h, ?_⟩
  intro text htext
  rcases isLine_or_mem_comment? number line m text htext with hline | hcomment
  · exact hline
  · exact Content.isLine_comment? h text hcomment

omit [Scalar α] in
theorem isLine_motionText (code : ℕ) : IsLine s!"G{code}" := by
  have hdigits : ∀ c ∈ Nat.toDigits 10 code, Word.isValueChar c := by
    intro c hc
    simp [Word.isValueChar, Nat.isDigit_of_mem_toDigits (by decide) (by decide) hc]
  have hletter : IsLine "G" := isLine_of_isAlpha (rfl : 'G'.isAlpha)
  exact hletter.append (isLine_of_valueChars hdigits)

/-- A block from a single line is written on a single line. -/
theorem SingleLine.isLine_write {b : Block α} (h : b.SingleLine) (format : NumberFormat)
    (emitted : Emitted α) : IsLine (b.write format emitted).2 := by
  have hnumber : ∀ (letter : Char), letter.isAlpha → ∀ value : α,
      IsLine (letter.toString ++ format.render value) := fun letter hletter value =>
    (isLine_of_isAlpha hletter).append (format.isLine_render value)
  have hoption : ∀ (letter : Char), letter.isAlpha → ∀ (value? : Option α),
      ∀ text ∈ (value?.map fun value => letter.toString ++ format.render value).toList,
        IsLine text := by
    intro letter hletter value? text htext
    obtain ⟨value, -, rfl⟩ : ∃ value, value? = some value ∧
        letter.toString ++ format.render value = text := by simpa using htext
    exact hnumber letter hletter value
  have haxis : ∀ axis : Axis, axis.letter.isAlpha := by
    intro axis
    cases axis <;> decide
  have hmotion : ∀ text ∈ (b.motion.code?.map fun code => s!"G{code}").toList, IsLine text := by
    intro text htext
    obtain ⟨code, -, rfl⟩ : ∃ code, b.motion.code? = some code ∧ s!"G{code}" = text := by
      simpa using htext
    exact isLine_motionText code
  rw [write]
  split
  · apply isLine_intercalate
    intro text htext
    simp only [draft, Draft.words, List.mem_append] at htext
    rcases htext with ((((((((htext | htext) | htext) | htext) | htext) | htext) | htext) | htext) |
      htext) | htext
    · exact h.extra text (by simp [ExtraWords.texts, htext])
    · exact hmotion text htext
    · exact h.extra text (by simp [ExtraWords.texts, htext])
    · obtain ⟨⟨axis, value⟩, -, rfl⟩ := List.mem_map.mp htext
      exact hnumber _ (haxis axis) value
    · exact hoption 'I' rfl _ text htext
    · exact hoption 'J' rfl _ text htext
    · exact hoption 'F' rfl _ text htext
    · exact hoption 'S' rfl _ text htext
    · exact h.extra text (by simp [ExtraWords.texts, htext])
    · exact h.extra text (by simp [ExtraWords.texts, htext])
  · exact h.text

end Block

end PartProgram
