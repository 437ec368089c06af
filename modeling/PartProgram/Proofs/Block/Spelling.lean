import PartProgram.Proofs.Block.Blanks

/-! # Words spelled on a line

A line spelled from words and comments with single blanks between them is read as these words, and
it holds no marker that its comments do not hold.
-/

namespace PartProgram

open Content (Zone split)

/-! ### Comments -/

namespace Content

/-- Comments as they stand on a line: groups, of which only the last may be left open, and at the end
perhaps a comment that takes the rest of the line. -/
inductive Comments : List (List Char) → Prop where
  | nil : Comments []
  | group {body rest} (h : ')' ∉ body) (hrest : Comments rest) :
      Comments (('(' :: (body ++ [')'])) :: rest)
  | open {body} (h : ')' ∉ body) : Comments ['(' :: body]
  | rest (body) : Comments [';' :: body]

/-- What is left to read of the comments in a zone. -/
def CommentsIn : Zone → List (List Char) → Prop
  | .code, cs => Comments cs
  | .group, cs => (∃ body, cs = [body] ∧ ')' ∉ body) ∨
      ∃ body rest, cs = (body ++ [')']) :: rest ∧ ')' ∉ body ∧ Comments rest
  | .rest, cs => ∃ body, cs = [body]

theorem commentsIn_split (zone : Zone) (cs : List Char) : CommentsIn zone (split zone cs).comments := by
  fun_induction split zone cs with
  | case1 => exact .nil
  | case2 => exact .inl ⟨[], rfl, by simp⟩
  | case3 => exact ⟨[], rfl⟩
  | case4 cs ih =>
      rcases ih with ⟨body, hcs, hbody⟩ | ⟨body, rest, hcs, hbody, hrest⟩
      · simpa [addComment, hcs, CommentsIn] using Comments.open hbody
      · simpa [addComment, hcs, CommentsIn] using Comments.group hbody hrest
  | case5 cs _ ih =>
      obtain ⟨body, hcs⟩ := ih
      simpa [addComment, hcs, CommentsIn] using Comments.rest body
  | case6 c cs _ _ ih => exact ih
  | case7 cs ih => exact .inr ⟨[], _, rfl, by simp, ih⟩
  | case8 c cs hclose ih =>
      have hne : ')' ≠ c := fun h => hclose h.symm
      rcases ih with ⟨body, hcs, hbody⟩ | ⟨body, rest, hcs, hbody, hrest⟩
      · exact .inl ⟨c :: body, by simp [addComment, hcs], by simp [hne, hbody]⟩
      · exact .inr ⟨c :: body, rest, by simp [addComment, hcs], by simp [hne, hbody], hrest⟩
  | case9 c cs ih =>
      obtain ⟨body, hcs⟩ := ih
      exact ⟨c :: body, by simp [addComment, hcs]⟩

theorem comments_ofLine (line : String) : Comments (ofLine line).comments := by
  rw [ofLine]
  split
  · exact .nil
  · exact commentsIn_split .code _

/-- Comments are pieces of the line that they stand on. -/
theorem infix_of_mem_comments_split (zone : Zone) (cs : List Char) :
    (zone ≠ .code → ∃ first rest, (split zone cs).comments = first :: rest ∧ first <+: cs) ∧
      ∀ comment ∈ (split zone cs).comments, comment <:+: cs := by
  have hadd : ∀ {c : Char} {cs first : List Char} {content : Content} {rest : List (List Char)},
      content.comments = first :: rest → first <+: cs → (∀ comment ∈ content.comments, comment <:+: cs) →
      (∃ first rest, (content.addComment c).comments = first :: rest ∧ first <+: c :: cs) ∧
        ∀ comment ∈ (content.addComment c).comments, comment <:+: c :: cs := by
    intro c cs first content rest hcontent hfirst hall
    have hcomments : (content.addComment c).comments = (c :: first) :: rest := by
      simp [addComment, hcontent]
    have hprefix : c :: first <+: c :: cs := (List.prefix_cons_inj c).mpr hfirst
    refine ⟨⟨c :: first, rest, hcomments, hprefix⟩, ?_⟩
    intro comment hmem
    rw [hcomments] at hmem
    rcases List.mem_cons.mp hmem with rfl | hmem
    · exact hprefix.isInfix
    · exact List.infix_cons (hall comment (by simp [hcontent, hmem]))
  fun_induction split zone cs with
  | case1 => simp [empty]
  | case2 => simp [empty, openComment]
  | case3 => simp [empty, openComment]
  | case4 cs ih =>
      obtain ⟨first, rest, hcs, hfirst⟩ := ih.1 (by simp)
      exact ⟨by simp, (hadd hcs hfirst ih.2).2⟩
  | case5 cs _ ih =>
      obtain ⟨first, rest, hcs, hfirst⟩ := ih.1 (by simp)
      exact ⟨by simp, (hadd hcs hfirst ih.2).2⟩
  | case6 c cs _ _ ih => exact ⟨by simp, fun comment hmem => List.infix_cons (ih.2 comment hmem)⟩
  | case7 cs ih =>
      have hopen : (split .code cs).openComment.comments = [] :: (split .code cs).comments := rfl
      have hall := hadd (c := ')') hopen List.nil_prefix (by simpa [hopen] using ih.2)
      exact ⟨fun _ => hall.1, hall.2⟩
  | case8 c cs _ ih =>
      obtain ⟨first, rest, hcs, hfirst⟩ := ih.1 (by simp)
      have hall := hadd (c := c) hcs hfirst ih.2
      exact ⟨fun _ => hall.1, hall.2⟩
  | case9 c cs ih =>
      obtain ⟨first, rest, hcs, hfirst⟩ := ih.1 (by simp)
      have hall := hadd (c := c) hcs hfirst ih.2
      exact ⟨fun _ => hall.1, hall.2⟩

theorem infix_of_mem_comments {line : String} {comment : List Char}
    (h : comment ∈ (ofLine line).comments) : comment <:+: line.toList := by
  rw [ofLine] at h
  split at h
  · simp [empty] at h
  · refine ((infix_of_mem_comments_split .code _).2 comment h).trans ?_
    have hsuffix : line.toList.dropWhile Text.isBlank <:+ line.toList := List.dropWhile_suffix _
    have hprefix : Text.trim line.toList <+: line.toList.dropWhile Text.isBlank := by
      rw [Text.trim, ← List.reverse_suffix, List.reverse_reverse]
      exact List.dropWhile_suffix _
    exact hprefix.isInfix.trans hsuffix.isInfix

end Content

/-! ### Spelled lines -/

/-- The word can be written and read again: its letter is in upper case, its value is no more than a
value. -/
structure Word.Proper (w : Word) : Prop where
  letter : w.letter.isUpper
  value : ∀ c ∈ w.value, Word.isValueChar c

theorem Word.proper_of_mem_wordsOf {line : String} {w : Word} (h : w ∈ wordsOf line) : w.Proper := by
  have hcode : ∀ (zone : Zone) (cs : List Char), ∀ c ∈ (split zone cs).code, ∃ d : Char, c = d.toUpper := by
    intro zone cs
    fun_induction split zone cs with
    | case1 | case2 | case3 => simp [Content.empty]
    | case4 cs ih => simpa using ih
    | case5 cs _ ih => simpa using ih
    | case6 c cs _ _ ih =>
        intro d hd
        rcases List.mem_cons.mp hd with rfl | hd
        · exact ⟨c, rfl⟩
        · exact ih d hd
    | case7 cs ih => simpa using ih
    | case8 c cs _ ih => simpa using ih
    | case9 c cs ih => simpa using ih
  have hletter : ∀ {cs : List Char}, w ∈ Word.ofCode cs → w.letter ∈ cs := by
    intro cs
    induction cs with
    | nil => simp [Word.ofCode]
    | cons c cs ih =>
        intro hw
        rw [Word.ofCode] at hw
        split at hw
        · rcases List.mem_cons.mp hw with rfl | hw
          · simp
          · exact List.mem_cons_of_mem c (ih hw)
        · exact List.mem_cons_of_mem c (ih hw)
  obtain ⟨halpha, hvalue⟩ := Word.ofCode_chars h
  refine ⟨?_, hvalue⟩
  have hmem := hletter h
  rw [Content.ofLine] at hmem
  split at hmem
  · simp [Content.empty] at hmem
  · obtain ⟨d, hd⟩ := hcode .code _ _ hmem
    rw [hd] at halpha ⊢
    exact isUpper_toUpper halpha

/-- The characters of the word. -/
def Word.chars (w : Word) : List Char := w.letter :: w.value

/-- A line of words and comments with single blanks between them. -/
def spelled (ws : List Word) (comments : List (List Char)) : List Char :=
  [' '].intercalate (ws.map Word.chars ++ comments)

theorem intercalate_cons_eq (chunk : List Char) (chunks : List (List Char)) :
    [' '].intercalate (chunk :: chunks) =
      chunk ++ if chunks = [] then [] else ' ' :: [' '].intercalate chunks := by
  split
  · rename_i h
    simp [h]
  · rename_i h
    rw [List.intercalate_cons_of_ne_nil h]
    simp

namespace Content

/-- A group is read up to the parenthesis that closes it, and what follows is code again. -/
theorem split_group {body : List Char} (h : ')' ∉ body) (cs : List Char) :
    split .group body = ⟨[], [body]⟩ ∧
      split .group (body ++ ')' :: cs) = ⟨(split .code cs).code, (body ++ [')']) :: (split .code cs).comments⟩ := by
  induction body with
  | nil => exact ⟨rfl, rfl⟩
  | cons c body ih =>
      have hc : c ≠ ')' := fun hc => h (by simp [hc])
      obtain ⟨hopen, hclosed⟩ := ih fun hmem => h (by simp [hmem])
      simp [split, hc, addComment, hopen, hclosed]

theorem split_rest (cs : List Char) : split .rest cs = ⟨[], [cs]⟩ := by
  induction cs with
  | nil => rfl
  | cons c cs ih => simp [split, addComment, ih]

/-- Comments are read as they are, and the code of their line is no more than the blanks between them. -/
theorem split_comments {cs : List (List Char)} (h : Comments cs) :
    (split .code ([' '].intercalate cs)).comments = cs ∧
      ∀ c ∈ (split .code ([' '].intercalate cs)).code, c = ' ' := by
  induction h with
  | nil => exact ⟨rfl, by simp [split, empty]⟩
  | @group body rest hbody _ ih =>
      have hline : [' '].intercalate (('(' :: (body ++ [')'])) :: rest) =
          '(' :: (body ++ ')' :: if rest = [] then [] else ' ' :: [' '].intercalate rest) := by
        simp [intercalate_cons_eq]
      have hrest : (split .code (if rest = [] then [] else ' ' :: [' '].intercalate rest)).comments = rest ∧
          ∀ c ∈ (split .code (if rest = [] then [] else ' ' :: [' '].intercalate rest)).code, c = ' ' := by
        split
        · rename_i hnil
          exact ⟨hnil.symm, by simp [Content.split, empty]⟩
        · simpa [Content.split, addCode] using ih
      rw [hline, split, if_pos rfl, (split_group hbody _).2]
      exact ⟨by simp [addComment, hrest.1], by simpa using hrest.2⟩
  | @«open» body hbody =>
      rw [List.intercalate_singleton, split, if_pos rfl, (split_group hbody []).1]
      exact ⟨rfl, by simp⟩
  | rest body =>
      rw [List.intercalate_singleton, split, if_neg (by decide), if_pos rfl, split_rest]
      exact ⟨rfl, by simp⟩

theorem split_append {front : List Char} (h : ∀ c ∈ front, c ≠ '(' ∧ c ≠ ';' ∧ c.toUpper = c) (cs : List Char) :
    split .code (front ++ cs) = ⟨front ++ (split .code cs).code, (split .code cs).comments⟩ := by
  induction front with
  | nil => rfl
  | cons c front ih =>
      obtain ⟨hparen, hsemicolon, hupper⟩ := h c (by simp)
      have htail := ih fun d hd => h d (by simp [hd])
      simp [split, hparen, hsemicolon, addCode, hupper, htail]

end Content

namespace Word

theorem toUpper_of_isValueChar {c : Char} (h : isValueChar c) :
    c ≠ '(' ∧ c ≠ ';' ∧ c ≠ ' ' ∧ c.toUpper = c ∧ c.isAlpha = false := by
  simp only [isValueChar, Bool.or_eq_true, decide_eq_true_eq] at h
  rcases h with ((hdigit | rfl) | rfl) | rfl
  · have hrange : 48 ≤ c.toNat ∧ c.toNat ≤ 57 := by
      simpa [Char.isDigit, UInt32.le_iff_toNat_le] using hdigit
    have hupper : c.isUpper = false := by
      rw [← Bool.not_eq_true, isUpper_iff]
      omega
    have hlower : c.isLower = false := by
      rw [← Bool.not_eq_true, isLower_iff]
      omega
    refine ⟨?_, ?_, ?_, toUpper_of_not_isLower hlower, by simp [isAlpha_eq, hupper, hlower]⟩
    all_goals
      rintro rfl
      simp at hrange
  all_goals decide

theorem toUpper_of_isUpper {c : Char} (h : c.isUpper) : c ≠ '(' ∧ c ≠ ';' ∧ c ≠ ' ' ∧ c.toUpper = c := by
  have hrange := isUpper_iff.mp h
  have hlower : c.isLower = false := by
    rw [← Bool.not_eq_true, isLower_iff]
    omega
  refine ⟨?_, ?_, ?_, toUpper_of_not_isLower hlower⟩
  all_goals
    rintro rfl
    simp at hrange

theorem Proper.chars {w : Word} (h : w.Proper) : ∀ c ∈ w.chars, c ≠ '(' ∧ c ≠ ';' ∧ c.toUpper = c := by
  intro c hc
  rcases List.mem_cons.mp hc with rfl | hc
  · obtain ⟨hparen, hsemicolon, -, hupper⟩ := toUpper_of_isUpper h.letter
    exact ⟨hparen, hsemicolon, hupper⟩
  · obtain ⟨hparen, hsemicolon, -, hupper, -⟩ := toUpper_of_isValueChar (h.value c hc)
    exact ⟨hparen, hsemicolon, hupper⟩

theorem Proper.isBlank_of_mem_chars {w : Word} (h : w.Proper) : ∀ c ∈ w.chars, Text.isBlank c = false := by
  intro c hc
  by_contra hblank
  obtain ⟨-, halpha, hvalue, -⟩ := not_isAlpha_of_isBlank (by simpa using hblank)
  rcases List.mem_cons.mp hc with rfl | hc
  · simp [isAlpha_eq, h.letter] at halpha
  · simp [h.value c hc] at hvalue

/-- No value starts here, not even after blanks. -/
def StartsNoValue (cs : List Char) : Prop := (cs.dropWhile (· = ' ')).takeWhile isValueChar = []

theorem StartsNoValue.takeWhile_eq {cs : List Char} (h : StartsNoValue cs) :
    cs.takeWhile isValueChar = [] := by
  cases cs with
  | nil => rfl
  | cons c cs =>
      by_cases hc : isValueChar c
      · have hblank : c ≠ ' ' := (toUpper_of_isValueChar hc).2.2.1
        rw [StartsNoValue, List.dropWhile_cons_of_neg (by simpa using hblank)] at h
        exact h
      · rw [List.takeWhile_cons_of_neg hc]

theorem Proper.startsNoValue {w : Word} (h : w.Proper) (cs : List Char) :
    StartsNoValue (w.chars ++ cs) := by
  obtain ⟨-, -, hblank, -⟩ := toUpper_of_isUpper h.letter
  have hletter : isValueChar w.letter = false := by
    by_contra hvalue
    have halpha := (toUpper_of_isValueChar (by simpa using hvalue)).2.2.2.2
    simp [isAlpha_eq, h.letter] at halpha
  rw [StartsNoValue, Word.chars, List.cons_append, List.dropWhile_cons_of_neg (by simpa using hblank),
    List.takeWhile_cons_of_neg (by simp [hletter])]

/-- A word that no value follows is read as itself. -/
theorem Proper.ofCode_append {w : Word} (h : w.Proper) {cs : List Char} (hcs : StartsNoValue cs) :
    ofCode (w.chars ++ cs) = w :: ofCode cs := by
  have hrest : ∀ value : List Char, (∀ c ∈ value, isValueChar c) → ofCode (value ++ cs) = ofCode cs := by
    intro value hvalue
    induction value with
    | nil => rfl
    | cons c value ih =>
        have halpha := (toUpper_of_isValueChar (hvalue c (by simp))).2.2.2.2
        rw [List.cons_append, ofCode, if_neg (by simp [halpha]), ih fun c hc => hvalue c (by simp [hc])]
  have hvalue : ((w.value ++ cs).dropWhile (· = ' ')).takeWhile isValueChar = w.value := by
    cases hv : w.value with
    | nil => exact hcs
    | cons c value =>
        have hall : ∀ d ∈ c :: value, isValueChar d := by
          rw [← hv]
          exact h.value
        have hblank : c ≠ ' ' := (toUpper_of_isValueChar (hall c (by simp))).2.2.1
        rw [List.cons_append, List.dropWhile_cons_of_neg (by simpa using hblank), ← List.cons_append,
          List.takeWhile_append_of_pos hall, hcs.takeWhile_eq, List.append_nil]
  have halpha : w.letter.isAlpha := by simp [isAlpha_eq, h.letter]
  rw [Word.chars, List.cons_append, ofCode, if_pos halpha, hvalue, hrest w.value h.value]

end Word

/-- A spelled line has the words that it has been spelled from. -/
theorem codeWords_spelled {ws : List Word} (hws : ∀ w ∈ ws, w.Proper) {comments : List (List Char)}
    (hcomments : Content.Comments comments) :
    codeWords (spelled ws comments) = ws ∧ Word.StartsNoValue (split .code (spelled ws comments)).code := by
  induction ws with
  | nil =>
      have hblank := (Content.split_comments hcomments).2
      have hcode : ∀ cs : List Char, (∀ c ∈ cs, c = ' ') → Word.ofCode cs = [] ∧ Word.StartsNoValue cs := by
        intro cs hcs
        refine ⟨?_, ?_⟩
        · induction cs with
          | nil => rfl
          | cons c cs ih =>
              obtain rfl : c = ' ' := hcs c (by simp)
              exact ih fun c hc => hcs c (by simp [hc])
        · have hdrop : cs.dropWhile (· = ' ') = [] := List.dropWhile_eq_nil_iff.mpr (by simpa using hcs)
          rw [Word.StartsNoValue, hdrop, List.takeWhile_nil]
      exact hcode _ hblank
  | cons w ws ih =>
      have hw : w.Proper := hws w (by simp)
      obtain ⟨hwords, hstart⟩ := ih fun w hw => hws w (by simp [hw])
      have hline : spelled (w :: ws) comments =
          w.chars ++ if ws.map Word.chars ++ comments = [] then [] else ' ' :: spelled ws comments := by
        rw [spelled, List.map_cons, List.cons_append, intercalate_cons_eq, spelled]
      rw [codeWords, hline, Content.split_append hw.chars]
      refine ⟨?_, hw.startsNoValue _⟩
      split
      · rename_i hnil
        obtain ⟨hnil, -⟩ := List.append_eq_nil_iff.mp hnil
        have hnone : Word.StartsNoValue (split .code []).code := rfl
        rw [List.map_eq_nil_iff.mp hnil, hw.ofCode_append hnone]
        rfl
      · have hcode : (split .code (' ' :: spelled ws comments)).code =
            ' ' :: (split .code (spelled ws comments)).code := by
          simp [split, Content.addCode]
        rw [hcode, hw.ofCode_append (by simpa [Word.StartsNoValue] using hstart)]
        rw [codeWords] at hwords
        simp [Word.ofCode, hwords]

theorem Content.Comments.head_eq {comments : List (List Char)} (h : Comments comments) :
    ∀ comment ∈ comments, comment.head? = some '(' ∨ comment.head? = some ';' := by
  induction h with
  | nil => simp
  | group _ _ ih => simpa using ih
  | «open» => simp
  | rest => simp

/-- A spelled line starts with a word or a comment. -/
theorem head?_spelled {ws : List Word} (hws : ∀ w ∈ ws, w.Proper) {comments : List (List Char)}
    (hcomments : Content.Comments comments) :
    ∀ c ∈ (spelled ws comments).head?, Text.isBlank c = false ∧ c ≠ '%' := by
  have hchunk : ∀ chunk ∈ ws.map Word.chars ++ comments,
      ∃ c cs, chunk = c :: cs ∧ Text.isBlank c = false ∧ c ≠ '%' := by
    intro chunk hchunk
    rcases List.mem_append.mp hchunk with hchunk | hchunk
    · obtain ⟨w, hw, rfl⟩ := List.mem_map.mp hchunk
      refine ⟨w.letter, w.value, rfl, (hws w hw).isBlank_of_mem_chars _ List.mem_cons_self, ?_⟩
      intro hpercent
      have hupper := (hws w hw).letter
      rw [hpercent] at hupper
      simp at hupper
    · cases chunk with
      | nil => simpa using hcomments.head_eq _ hchunk
      | cons c cs =>
          have hc : c = '(' ∨ c = ';' := by simpa using hcomments.head_eq _ hchunk
          refine ⟨c, cs, rfl, ?_⟩
          rcases hc with rfl | rfl <;> decide
  intro c hc
  rw [spelled] at hc
  cases hchunks : ws.map Word.chars ++ comments with
  | nil => simp [hchunks] at hc
  | cons chunk chunks =>
      obtain ⟨d, cs, rfl, hd⟩ := hchunk chunk (by simp [hchunks])
      rw [hchunks, intercalate_cons_eq] at hc
      obtain rfl : d = c := by simpa using hc
      exact hd

theorem wordsOf_spelled {ws : List Word} (hws : ∀ w ∈ ws, w.Proper) {comments : List (List Char)}
    (hcomments : Content.Comments comments) :
    wordsOf (String.ofList (spelled ws comments)) = ws := by
  rw [wordsOf_ofList, (codeWords_spelled hws hcomments).1]
  have hhead := head?_spelled hws hcomments
  cases hline : spelled ws comments with
  | nil => simp [Text.trim]
  | cons c cs =>
      rw [hline] at hhead
      obtain ⟨hblank, hpercent⟩ := hhead c rfl
      obtain ⟨rest, hrest⟩ := Text.trim_cons_of_not_isBlank hblank cs
      rw [hrest]
      simpa using hpercent

/-! ### What a spelled line holds -/

theorem mem_intercalate {c : Char} {chunks : List (List Char)} (h : c ∈ [' '].intercalate chunks) :
    c = ' ' ∨ ∃ chunk ∈ chunks, c ∈ chunk := by
  induction chunks with
  | nil => simp at h
  | cons chunk chunks ih =>
      rw [intercalate_cons_eq] at h
      rcases List.mem_append.mp h with h | h
      · exact .inr ⟨chunk, by simp, h⟩
      · split at h
        · simp at h
        · rcases List.mem_cons.mp h with h | h
          · exact .inl h
          · rcases ih h with h | ⟨chunk', hchunk', h⟩
            · exact .inl h
            · exact .inr ⟨chunk', by simp [hchunk'], h⟩

/-- What lacks a character stands on one side of it. -/
theorem infix_or_infix_of_not_mem {needle xs ys : List Char} {c : Char} (hneedle : c ∉ needle)
    (h : needle <:+: xs ++ c :: ys) : needle <:+: xs ∨ needle <:+: ys := by
  obtain ⟨before, after, heq⟩ := h
  rcases List.append_eq_append_iff.mp heq with ⟨mid, hxs, -⟩ | ⟨mid, hfront, hback⟩
  · exact .inl ⟨before, mid, hxs.symm⟩
  · cases mid with
    | nil => exact .inl ⟨before, [], by simpa using hfront⟩
    | cons d mid =>
        obtain ⟨rfl, rfl⟩ : c = d ∧ ys = mid ++ after := by simpa using hback
        rcases List.append_eq_append_iff.mp hfront with ⟨mid', -, hmid⟩ | ⟨mid', -, hmid⟩
        · exact absurd (by simp [hmid]) hneedle
        · cases mid' with
          | nil =>
              obtain rfl : c :: mid = needle := by simpa using hmid
              simp at hneedle
          | cons d mid' =>
              obtain ⟨-, rfl⟩ : c = d ∧ mid = mid' ++ needle := by simpa using hmid
              exact .inr ⟨mid', after, rfl⟩

/-- What holds no blank stands in one of the pieces between the blanks. -/
theorem infix_of_infix_intercalate {needle : List Char} (hneedle : ' ' ∉ needle) (hnil : needle ≠ [])
    {chunks : List (List Char)} (h : needle <:+: [' '].intercalate chunks) :
    ∃ chunk ∈ chunks, needle <:+: chunk := by
  induction chunks with
  | nil => simp [hnil] at h
  | cons chunk chunks ih =>
      rw [intercalate_cons_eq] at h
      split at h
      · exact ⟨chunk, by simp, by simpa using h⟩
      · rcases infix_or_infix_of_not_mem hneedle h with h | h
        · exact ⟨chunk, by simp, h⟩
        · obtain ⟨chunk', hmem, hpart⟩ := ih h
          exact ⟨chunk', by simp [hmem], hpart⟩

/-- What lacks the characters around a text stands within the text. -/
theorem infix_of_infix_enclosed {needle before xs after : List Char} (hnil : needle ≠ [])
    (hbefore : ∀ c ∈ before, c ∉ needle) (hafter : ∀ c ∈ after, c ∉ needle)
    (h : needle <:+: before ++ xs ++ after) : needle <:+: xs := by
  have hfront : ∀ {needle before ys : List Char}, needle ≠ [] → (∀ c ∈ before, c ∉ needle) →
      needle <:+: before ++ ys → needle <:+: ys := by
    intro needle before ys hnil hbefore h
    induction before with
    | nil => exact h
    | cons c before ih =>
        have hsides : needle <:+: [] ∨ needle <:+: before ++ ys :=
          infix_or_infix_of_not_mem (hbefore c (by simp)) h
        exact ih (fun c hc => hbefore c (by simp [hc])) (hsides.resolve_left (by simpa using hnil))
  rw [List.append_assoc] at h
  have hback := List.reverse_infix.mpr (hfront hnil hbefore h)
  rw [List.reverse_append] at hback
  exact List.reverse_infix.mp (hfront (by simpa using hnil) (by simpa using hafter) hback)

theorem Text.occursIn_iff (needle cs : List Char) : occursIn needle cs = true ↔ needle <:+: cs := by
  induction cs with
  | nil => simp [occursIn]
  | cons c cs ih => simp [occursIn, List.infix_cons_iff, ih]

theorem Text.upper_append (xs ys : List Char) : upper (xs ++ ys) = upper xs ++ upper ys :=
  List.flatMap_append

theorem Text.upper_infix {xs ys : List Char} (h : xs <:+: ys) : upper xs <:+: upper ys := by
  obtain ⟨before, after, rfl⟩ := h
  exact ⟨upper before, upper after, by rw [upper_append, upper_append]⟩

theorem Text.upper_intercalate (chunks : List (List Char)) :
    upper ([' '].intercalate chunks) = [' '].intercalate (chunks.map upper) := by
  induction chunks with
  | nil => rfl
  | cons chunk chunks ih =>
      have hblank : upperOf ' ' = [' '] := by decide
      rw [List.map_cons, intercalate_cons_eq, intercalate_cons_eq, ← ih]
      by_cases h : chunks = [] <;> simp [h, upper, hblank]

/-- The characters of a word are not those that markers begin with. -/
theorem Word.Proper.not_mem_upper {w : Word} (h : w.Proper) :
    '%' ∉ Text.upper w.chars ∧ '(' ∉ Text.upper w.chars := by
  have hchar : ∀ c ∈ w.chars, Text.upperOf c = [c] ∧ c ≠ '%' := by
    intro c hc
    have hupper := (h.chars c hc).2.2
    have hrange : c.toNat < 128 ∧ c ≠ '%' := by
      rcases List.mem_cons.mp hc with rfl | hc
      · have hletter := isUpper_iff.mp h.letter
        refine ⟨by omega, ?_⟩
        intro hpercent
        simp [hpercent] at hletter
      · have hvalue := h.value c hc
        simp only [Word.isValueChar, Bool.or_eq_true, decide_eq_true_eq] at hvalue
        rcases hvalue with ((hdigit | rfl) | rfl) | rfl
        · have hdigit : 48 ≤ c.toNat ∧ c.toNat ≤ 57 := by
            simpa [Char.isDigit, UInt32.le_iff_toNat_le] using hdigit
          refine ⟨by omega, ?_⟩
          rintro rfl
          simp at hdigit
        all_goals decide
    exact ⟨by simp [Text.upperOf, hrange.1, hupper], hrange.2⟩
  have hmem : ∀ d ∈ Text.upper w.chars, d ∈ w.chars := by
    intro d hd
    obtain ⟨c, hc, hd⟩ := List.mem_flatMap.mp hd
    rw [(hchar c hc).1, List.mem_singleton] at hd
    exact hd ▸ hc
  exact ⟨fun hpercent => (hchar _ (hmem _ hpercent)).2 rfl, fun hopen => (h.chars _ (hmem _ hopen)).1 rfl⟩

/-- Spelling a line anew, with its comments, adds no marker to it. -/
theorem Markers.onLine_of_spelled {marker : String} (hblank : ' ' ∉ Text.upper marker.toList)
    (hpercent : '%' ∈ Text.upper marker.toList) {ws : List Word} (hws : ∀ w ∈ ws, w.Proper) {line : String}
    (h : onLine marker (String.ofList (spelled ws (Content.ofLine line).comments))) :
    onLine marker line := by
  rw [onLine, Text.occursIn_iff, String.toList_ofList, spelled, Text.upper_intercalate] at h
  obtain ⟨chunk, hchunk, hpart⟩ := infix_of_infix_intercalate hblank (List.ne_nil_of_mem hpercent) h
  obtain ⟨chunk, hmem, rfl⟩ := List.mem_map.mp hchunk
  rw [onLine, Text.occursIn_iff]
  rcases List.mem_append.mp hmem with hmem | hmem
  · obtain ⟨w, hw, rfl⟩ := List.mem_map.mp hmem
    exact absurd (hpart.subset hpercent) (hws w hw).not_mem_upper.1
  · exact hpart.trans (Text.upper_infix (Content.infix_of_mem_comments hmem))

/-- A text does not begin among characters that its first one is not among. -/
theorem infix_of_infix_append_of_head {needle : List Char} (xs ys : List Char) {c : Char}
    (hhead : needle.head? = some c) (hc : c ∉ xs) (h : needle <:+: xs ++ ys) : needle <:+: ys := by
  induction xs with
  | nil => exact h
  | cons x xs ih =>
      rw [List.mem_cons, not_or] at hc
      rcases List.infix_cons_iff.mp h with ⟨rest, hrest⟩ | h
      · obtain ⟨tail, rfl⟩ := List.head?_eq_some_iff.mp hhead
        exact absurd (List.cons.inj hrest).1 hc.1
      · exact ih hc.2 h

/-- A text that begins like a group, and does not end one, stands within one of the comments. -/
theorem Content.Comments.exists_mem_of_infix_intercalate {comments : List (List Char)} (hcomments : Comments comments)
    {needle : List Char} (hopen : needle.head? = some '(') (hclose : ')' ∉ needle)
    (h : needle <:+: [' '].intercalate (comments.map Text.upper)) :
    ∃ comment ∈ comments, needle <:+: Text.upper comment := by
  have hsingle : ∀ chunk : List Char, needle <:+: [' '].intercalate [chunk] → needle <:+: chunk := by simp
  induction hcomments with
  | nil =>
      obtain rfl := List.infix_nil.mp h
      simp at hopen
  | @group body rest hbody hrest ih =>
      have hparenthesis : Text.upper [')'] = [')'] := by decide
      have hupper : Text.upper ('(' :: (body ++ [')'])) = Text.upper ('(' :: body) ++ [')'] := by
        rw [← hparenthesis, ← Text.upper_append]
        rfl
      rw [List.map_cons, intercalate_cons_eq] at h
      split at h
      · exact ⟨_, List.mem_cons_self, by simpa using h⟩
      · rw [hupper, List.append_assoc, List.singleton_append] at h
        rcases infix_or_infix_of_not_mem hclose h with h | h
        · exact ⟨_, List.mem_cons_self, h.trans (hupper ▸ (List.prefix_append _ _).isInfix)⟩
        · obtain ⟨comment, hmem, hpart⟩ := ih (infix_of_infix_append_of_head [' '] _ hopen (by decide) h)
          exact ⟨comment, List.mem_cons_of_mem _ hmem, hpart⟩
  | «open» | rest => exact ⟨_, List.mem_cons_self, hsingle _ h⟩

/-- Spelling a line anew, with its comments, adds no marker to it that begins like a comment. -/
theorem Markers.onLine_of_spelled_of_head {marker : String} (hopen : (Text.upper marker.toList).head? = some '(')
    (hclose : ')' ∉ Text.upper marker.toList) {ws : List Word} (hws : ∀ w ∈ ws, w.Proper) {line : String}
    (h : onLine marker (String.ofList (spelled ws (Content.ofLine line).comments))) : onLine marker line := by
  rw [onLine, Text.occursIn_iff, String.toList_ofList, spelled, Text.upper_intercalate, List.map_append] at h
  have hcomments : Text.upper marker.toList <:+: [' '].intercalate ((Content.ofLine line).comments.map Text.upper) := by
    induction ws with
    | nil => exact h
    | cons w ws ih =>
        have hword := (hws w (by simp)).not_mem_upper.2
        rw [List.map_cons, List.map_cons, List.cons_append, intercalate_cons_eq] at h
        refine ih (fun w hw => hws w (by simp [hw])) ?_
        split at h
        · rename_i hnil
          rw [hnil]
          exact infix_of_infix_append_of_head _ [] hopen hword (by simpa using h)
        · refine infix_of_infix_append_of_head (Text.upper w.chars ++ [' ']) _ hopen ?_ (by simpa using h)
          simpa using hword
  obtain ⟨comment, hmem, hpart⟩ := (Content.comments_ofLine line).exists_mem_of_infix_intercalate hopen hclose hcomments
  rw [onLine, Text.occursIn_iff]
  exact hpart.trans (Text.upper_infix (Content.infix_of_mem_comments hmem))

theorem Markers.onLine_of_dropReturn {marker line : String}
    (h : onLine marker (String.ofList (Text.dropReturn line.toList))) : onLine marker line := by
  have hprefix : Text.dropReturn line.toList <+: line.toList := by
    rw [Text.dropReturn]
    split
    · exact List.dropLast_prefix _
    · exact List.prefix_refl _
  rw [onLine, Text.occursIn_iff, String.toList_ofList] at h
  rw [onLine, Text.occursIn_iff]
  exact h.trans (Text.upper_infix hprefix.isInfix)

end PartProgram
