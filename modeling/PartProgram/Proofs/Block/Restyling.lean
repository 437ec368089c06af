import Mathlib
import PartProgram.Proofs.Block.Spelling
import PartProgram.Proofs.Number.Exact

/-! # Lines in another style

The case of letters, blanks around a line and the text of its comments are style: lines that differ in no more than
that are read alike.
-/

namespace PartProgram

open Content (Zone split)

/-! ### Case and blanks -/

/-- Only a letter changes with its case. -/
theorem toUpper_eq_iff {c d : Char} (hd : d.isAlpha = false) : c.toUpper = d ↔ c = d := by
  cases hc : c.isAlpha with
  | false =>
      have hlower : c.isLower = false := by
        rw [isAlpha_eq, Bool.or_eq_false_iff] at hc
        exact hc.2
      rw [toUpper_of_not_isLower hlower]
  | true =>
      have halpha : c.toUpper.isAlpha = true := by rw [Char.isAlpha_toUpper_eq_isAlpha, hc]
      refine iff_of_false ?_ ?_
      · rintro rfl
        exact absurd halpha (by simp [hd])
      · rintro rfl
        exact absurd hc (by simp [hd])

namespace Text

theorem isBlank_toUpper (c : Char) : isBlank c.toUpper = isBlank c := by
  by_cases h : isBlank c
  · rw [(not_isAlpha_of_isBlank h).1]
  · rw [Bool.not_eq_true] at h
    rw [h, ← Bool.not_eq_true]
    intro hupper
    have hsame : c = c.toUpper := (toUpper_eq_iff (not_isAlpha_of_isBlank hupper).2.1).mp rfl
    rw [← hsame, h] at hupper
    exact absurd hupper (by simp)

/-- A line begins with its first character that is not blank. -/
theorem head?_trim (cs : List Char) : (trim cs).head? = cs.find? (!isBlank ·) := by
  induction cs with
  | nil => rfl
  | cons c cs ih =>
      cases h : isBlank c with
      | true => simpa [trim, h] using ih
      | false =>
          obtain ⟨rest, hrest⟩ := trim_cons_of_not_isBlank h cs
          simp [hrest, h]

/-- Blanks that are put around a line are taken off with those that were there. -/
theorem trim_padded {before after : List Char} (hbefore : ∀ c ∈ before, isBlank c) (hafter : ∀ c ∈ after, isBlank c)
    (cs : List Char) : trim (before ++ cs ++ after) = trim cs := by
  have hdrop : ∀ {blanks : List Char} (ds : List Char), (∀ c ∈ blanks, isBlank c) →
      (blanks ++ ds).dropWhile isBlank = ds.dropWhile isBlank :=
    fun _ h => List.dropWhile_append_of_pos h
  rw [trim, List.append_assoc, hdrop _ hbefore, List.dropWhile_append]
  split
  · rename_i hnil
    rw [trim, List.isEmpty_iff.mp hnil, List.dropWhile_eq_nil_iff.mpr hafter]
  · rw [List.reverse_append, hdrop _ (by simpa using hafter), trim]

theorem exists_append_trim (cs : List Char) :
    ∃ before after, cs = before ++ (trim cs ++ after) ∧ ∀ c ∈ before, isBlank c := by
  refine ⟨cs.takeWhile isBlank, ((cs.dropWhile isBlank).reverse.takeWhile isBlank).reverse, ?_,
    fun c hc => List.mem_takeWhile_imp hc⟩
  rw [trim, ← List.reverse_append, List.takeWhile_append_dropWhile, List.reverse_reverse,
    List.takeWhile_append_dropWhile]

end Text

/-! ### Zones -/

namespace Content

/-- The zone behind a character. -/
def Zone.next : Zone → Char → Zone
  | .code, c => if c = '(' then .group else if c = ';' then .rest else .code
  | .group, c => if c = ')' then .code else .group
  | .rest, _ => .rest

/-- The zone behind some characters. -/
def Zone.after (zone : Zone) (cs : List Char) : Zone := cs.foldl next zone

theorem Zone.after_append (zone : Zone) (front back : List Char) :
    zone.after (front ++ back) = (zone.after front).after back := List.foldl_append

theorem Zone.after_of_isBlank {cs : List Char} (h : ∀ c ∈ cs, Text.isBlank c) : Zone.after .code cs = .code := by
  induction cs with
  | nil => rfl
  | cons c cs ih =>
      obtain ⟨-, -, -, hopen, hrest, -⟩ := not_isAlpha_of_isBlank (h c (by simp))
      have hnext : Zone.next .code c = .code := by simp [next, hopen, hrest]
      rw [after, List.foldl_cons, hnext]
      exact ih fun d hd => h d (by simp [hd])

/-- The contents of two pieces of a line, one behind the other. -/
def append (front back : Content) : Content := ⟨front.code ++ back.code, front.comments ++ back.comments⟩

theorem addComment_append (c : Char) {front : Content} (h : front.comments ≠ []) (back : Content) :
    (front.append back).addComment c = (front.addComment c).append back := by
  obtain ⟨first, rest, hcomments⟩ := List.exists_cons_of_ne_nil h
  simp [addComment, append, hcomments]

theorem comments_split_ne_nil {zone : Zone} (h : zone ≠ .code) (cs : List Char) : (split zone cs).comments ≠ [] := by
  obtain ⟨first, rest, hcomments, -⟩ := (infix_of_mem_comments_split zone cs).1 h
  simp [hcomments]

/-- What stands behind some characters, and not within a comment, is read on its own. -/
theorem split_append_of_after {zone : Zone} {front : List Char} (h : zone.after front = .code) (cs : List Char) :
    split zone (front ++ cs) = (split zone front).append (split .code cs) := by
  have hadd : ∀ {zone : Zone} (c : Char) (front : List Char), zone ≠ .code →
      split zone (front ++ cs) = (split zone front).append (split .code cs) →
      (split zone (front ++ cs)).addComment c = ((split zone front).addComment c).append (split .code cs) := by
    intro zone c front hzone hfront
    rw [hfront, addComment_append c (comments_split_ne_nil hzone front)]
  fun_induction split zone front with
  | case1 => rfl
  | case2 | case3 => simp [Zone.after] at h
  | case4 front ih => exact hadd '(' front (by simp) (ih h)
  | case5 front _ ih => exact hadd ';' front (by simp) (ih h)
  | case6 c front hopen hrest ih =>
      have hfront : Zone.after .code front = .code := by simpa [Zone.after, Zone.next, hopen, hrest] using h
      rw [List.cons_append, split, if_neg hopen, if_neg hrest, ih hfront]
      rfl
  | case7 front ih =>
      rw [List.cons_append, split, if_pos rfl, ih h]
      rfl
  | case8 c front hclose ih =>
      rw [List.cons_append, split, if_neg hclose]
      exact hadd c front (by simp) (ih (by simpa [Zone.after, Zone.next, hclose] using h))
  | case9 c front ih => exact hadd c front (by simp) (ih h)

/-- Comments begin behind characters after which code would be read. Within a comment this holds of those behind it. -/
theorem exists_front_of_mem_comments_split (zone : Zone) (cs : List Char) {comment : List Char}
    (h : comment ∈ if zone = .code then (split zone cs).comments else (split zone cs).comments.tail) :
    ∃ front back, zone.after front = .code ∧ cs = front ++ (comment ++ back) := by
  have hcons : ∀ {zone zone' : Zone} (c : Char) {cs : List Char}, zone.next c = zone' →
      (∃ front back, zone'.after front = .code ∧ cs = front ++ (comment ++ back)) →
      ∃ front back, zone.after front = .code ∧ c :: cs = front ++ (comment ++ back) := by
    rintro zone _ c _ rfl ⟨front, back, hafter, rfl⟩
    exact ⟨c :: front, back, hafter, rfl⟩
  -- a comment that has been opened is the one being read, or one behind it
  have hopened : ∀ (zone : Zone) (c : Char) (cs : List Char), zone ≠ .code →
      comment ∈ ((split zone cs).addComment c).comments →
      (∃ back, c :: cs = comment ++ back) ∨ comment ∈ (split zone cs).comments.tail := by
    intro zone c cs hzone hmem
    obtain ⟨first, rest, hcomments, back, rfl⟩ := (infix_of_mem_comments_split zone cs).1 hzone
    simp only [addComment, hcomments, List.mem_cons] at hmem
    rcases hmem with rfl | hmem
    · exact .inl ⟨back, rfl⟩
    · exact .inr (by simpa [hcomments] using hmem)
  have htail : ∀ (zone : Zone) (c : Char) (cs : List Char), zone ≠ .code →
      ((split zone cs).addComment c).comments.tail = (split zone cs).comments.tail := by
    intro zone c cs hzone
    obtain ⟨first, rest, hcomments⟩ := List.exists_cons_of_ne_nil (comments_split_ne_nil hzone cs)
    simp [addComment, hcomments]
  fun_induction split zone cs with
  | case1 => simp [empty] at h
  | case2 | case3 => simp [empty, openComment] at h
  | case4 cs ih =>
      rcases hopened .group '(' cs (by simp) (by simpa using h) with ⟨back, hback⟩ | hmem
      · exact ⟨[], back, rfl, hback⟩
      · exact hcons '(' rfl (ih (by simpa using hmem))
  | case5 cs _ ih =>
      rcases hopened .rest ';' cs (by simp) (by simpa using h) with ⟨back, hback⟩ | hmem
      · exact ⟨[], back, rfl, hback⟩
      · exact hcons ';' rfl (ih (by simpa using hmem))
  | case6 c cs hopen hrest ih => exact hcons c (by simp [Zone.next, hopen, hrest]) (ih h)
  | case7 cs ih => exact hcons ')' rfl (ih (by simpa [addComment, openComment] using h))
  | case8 c cs hclose ih => exact hcons c (by simp [Zone.next, hclose]) (ih (by simpa [htail .group c cs] using h))
  | case9 c cs ih => exact hcons c rfl (ih (by simpa [htail .rest c cs] using h))

/-- Every comment of a line begins behind characters after which code would be read. -/
theorem exists_front_of_mem_comments {line : String} {comment : List Char} (h : comment ∈ (ofLine line).comments) :
    ∃ front back, Zone.after .code front = .code ∧ line.toList = front ++ (comment ++ back) := by
  rw [ofLine] at h
  split at h
  · simp [empty] at h
  · obtain ⟨before, after, hline, hbefore⟩ := Text.exists_append_trim line.toList
    obtain ⟨front, back, hfront, htrim⟩ := exists_front_of_mem_comments_split .code _ h
    refine ⟨before ++ front, back ++ after, ?_, ?_⟩
    · rw [Zone.after_append, Zone.after_of_isBlank hbefore, hfront]
    · rw [hline, htrim]
      simp

/-- The code of a line does not depend on the case of its letters. -/
theorem code_split_map_toUpper (zone : Zone) (cs : List Char) :
    (split zone (cs.map Char.toUpper)).code = (split zone cs).code := by
  have hopen : ∀ c : Char, c.toUpper = '(' ↔ c = '(' := fun c => toUpper_eq_iff (by decide)
  have hclose : ∀ c : Char, c.toUpper = ')' ↔ c = ')' := fun c => toUpper_eq_iff (by decide)
  have hrest : ∀ c : Char, c.toUpper = ';' ↔ c = ';' := fun c => toUpper_eq_iff (by decide)
  fun_induction split zone cs with
  | case1 | case2 | case3 => rfl
  | case4 cs ih => simpa [split, hopen] using ih
  | case5 cs _ ih => simpa [split, hrest] using ih
  | case6 c cs h h' ih => simp [split, hopen, hrest, h, h', addCode, ih]
  | case7 cs ih => simpa [split] using ih
  | case8 c cs h ih => simpa [split, hclose, h] using ih
  | case9 c cs ih => simpa [split] using ih

/-- A comment that is closed, with the code and the comments around it. -/
theorem split_group_of_after {front body : List Char} (h : Zone.after .code front = .code) (hbody : ')' ∉ body)
    (back : List Char) :
    split .code (front ++ '(' :: (body ++ ')' :: back)) =
      (split .code front).append
        ⟨(split .code back).code, ('(' :: (body ++ [')'])) :: (split .code back).comments⟩ := by
  rw [split_append_of_after h, split, if_pos rfl, (split_group hbody back).2]
  rfl

/-- A comment that takes the rest of the line, with what stands before it. -/
theorem split_rest_of_after {front : List Char} (h : Zone.after .code front = .code) (text : List Char) :
    split .code (front ++ ';' :: text) = (split .code front).append ⟨[], [';' :: text]⟩ := by
  rw [split_append_of_after h, split, if_neg (by decide), if_pos rfl, split_rest]
  rfl

end Content

/-! ### Changes of style -/

/-- A change to a line that does not concern its code. -/
inductive Restyled : List Char → List Char → Prop where
  /-- Letters are written in another case. -/
  | letters {cs cs'} (h : cs.map Char.toUpper = cs'.map Char.toUpper) : Restyled cs cs'
  /-- Blanks are put around the line. -/
  | padding (before cs after) (hbefore : ∀ c ∈ before, Text.isBlank c) (hafter : ∀ c ∈ after, Text.isBlank c) :
      Restyled cs (before ++ cs ++ after)
  /-- A comment that is closed gets another text, and is closed at the same place. -/
  | group (front body body' back) (hfront : Zone.after .code front = .code) (hbody : ')' ∉ body)
      (hbody' : ')' ∉ body') :
      Restyled (front ++ '(' :: (body ++ ')' :: back)) (front ++ '(' :: (body' ++ ')' :: back))
  /-- A comment that takes the rest of the line gets another text. -/
  | rest (front text text') (hfront : Zone.after .code front = .code) :
      Restyled (front ++ ';' :: text) (front ++ ';' :: text')

/-- Changes of style, in both directions, lead from one line to the other. -/
def SameCode (line line' : String) : Prop := Relation.EqvGen Restyled line.toList line'.toList

/-- The block without the text of its line and without its comments. -/
def Block.bare {α : Type} (b : Block α) : Block α :=
  { b with text := "", extra := { b.extra with comment := none } }

/-- A line has no words if it begins with a percent sign, and else those of its code. -/
theorem wordsOf_ofList_eq_ite (cs : List Char) :
    wordsOf (String.ofList cs) = if cs.find? (!Text.isBlank ·) = some '%' then [] else codeWords cs := by
  rw [← Text.head?_trim]
  split
  · rename_i h
    obtain ⟨rest, hrest⟩ := List.head?_eq_some_iff.mp h
    rw [wordsOf, Content.ofLine, String.toList_ofList, hrest]
    rfl
  · rename_i h
    exact wordsOf_ofList h

/-- What is read of a line is read of its words, but for its text and its comments. -/
theorem Block.read_eq_of_wordsOf {α : Type} [Scalar α] {line line' : String} (h : wordsOf line' = wordsOf line)
    (number : ℕ) (m : Modal α) :
    (read number line' m).1 = (read number line m).1 ∧ (read number line' m).2.bare = (read number line m).2.bare := by
  have hcodes : LineCodes.ofLine α line' = LineCodes.ofLine α line := by
    rw [LineCodes.ofLine_eq, LineCodes.ofLine_eq, h]
  have hmodal : m.after line' = m.after line := by
    simp only [Modal.after, h, hcodes]
  refine ⟨by rw [read_fst, read_fst, hmodal], ?_⟩
  rw [read_snd, read_snd, hmodal, hcodes, h]
  rfl

/-- A change of style changes no word. -/
theorem Restyled.wordsOf_eq {cs cs' : List Char} (h : Restyled cs cs') :
    wordsOf (String.ofList cs') = wordsOf (String.ofList cs) := by
  cases h with
  | letters h =>
      have hstart : ∀ cs : List Char, (cs.map Char.toUpper).find? (!Text.isBlank ·) = some '%' ↔
          cs.find? (!Text.isBlank ·) = some '%' := by
        intro cs
        have hblank : (!Text.isBlank ·) ∘ Char.toUpper = (!Text.isBlank ·) :=
          funext fun c => congrArg Bool.not (Text.isBlank_toUpper c)
        rw [List.find?_map, hblank]
        simp [toUpper_eq_iff (d := '%') (by decide)]
      have hwords : ∀ cs : List Char, codeWords (cs.map Char.toUpper) = codeWords cs := by
        intro cs
        rw [codeWords, Content.code_split_map_toUpper, codeWords]
      rw [wordsOf_ofList_eq_ite, wordsOf_ofList_eq_ite, ← hwords, ← hwords cs, h]
      simp only [← hstart cs, ← hstart cs', h]
  | padding before _ after hbefore hafter =>
      rw [wordsOf, wordsOf, Content.ofLine, Content.ofLine, String.toList_ofList, String.toList_ofList,
        Text.trim_padded hbefore hafter]
  | group front body body' back hfront hbody hbody' =>
      have hopen : Text.isBlank '(' = false := by decide
      simp only [wordsOf_ofList_eq_ite, codeWords, List.find?_append, Content.split_group_of_after hfront hbody,
        Content.split_group_of_after hfront hbody', List.find?_cons, hopen]
      rfl
  | rest front text text' hfront =>
      have hopen : Text.isBlank ';' = false := by decide
      simp only [wordsOf_ofList_eq_ite, codeWords, List.find?_append, Content.split_rest_of_after hfront,
        List.find?_cons, hopen]
      rfl

theorem SameCode.wordsOf_eq {line line' : String} (h : SameCode line line') : wordsOf line' = wordsOf line := by
  have hwords : ∀ {cs cs' : List Char}, Relation.EqvGen Restyled cs cs' →
      wordsOf (String.ofList cs') = wordsOf (String.ofList cs) := by
    intro cs cs' h
    induction h with
    | rel _ _ h => exact h.wordsOf_eq
    | refl _ => rfl
    | symm _ _ _ ih => exact ih.symm
    | trans _ _ _ _ _ ih ih' => exact ih'.trans ih
  simpa using hwords h

namespace Block

variable {α : Type} [Scalar α]

/-- Style carries no code: lines that differ only in the case of letters, in blanks around them and in the text of
comments are read as the same words, and leave the same modes. Every comment of a line stands where it can be given
another text. -/
theorem read_eq_of_sameCode (number : ℕ) (m : Modal α) (line : String) :
    (∀ line', SameCode line line' → (read number line' m).1 = (read number line m).1 ∧
      (read number line' m).2.bare = (read number line m).2.bare) ∧
    ∀ comment ∈ (Content.ofLine line).comments, ∃ front back, Zone.after .code front = .code ∧
      line.toList = front ++ (comment ++ back) :=
  ⟨fun _ h => read_eq_of_wordsOf h.wordsOf_eq number m, fun _ h => Content.exists_front_of_mem_comments h⟩

/-- The comments come to hold words, delimiters and a percent sign. One of them stands between a letter and its
value. -/
theorem read_eq_of_restyled_comments :
    let _ := PlaneFunctions.axial
    let line := "g91 x1 y(a)2 ; done"
    let line' := "\tG91 X1 Y(G2; (X7 %)2 ;) x3 "
    let m : Modal ℚ := .initial
    SameCode line line' ∧ (Content.ofLine line').comment? = some "(G2; (X7 %) ;) x3" ∧
      (read 0 line' m).2.x = some 1 ∧ (read 0 line' m).2.y = some 2 ∧ (read 0 line' m).1.absolute = false ∧
      (read 0 line' m).1 = (read 0 line m).1 ∧ (read 0 line' m).2.bare = (read 0 line m).2.bare := by
  intro _ line line' m
  have hletters : Restyled line.toList "G91 X1 Y(A)2 ; DONE".toList := .letters (by decide)
  have hgroup : Restyled "G91 X1 Y(A)2 ; DONE".toList "G91 X1 Y(G2; (X7 %)2 ; DONE".toList :=
    .group "G91 X1 Y".toList ['A'] "G2; (X7 %".toList "2 ; DONE".toList (by decide) (by decide) (by decide)
  have hrest : Restyled "G91 X1 Y(G2; (X7 %)2 ; DONE".toList "G91 X1 Y(G2; (X7 %)2 ;) x3".toList :=
    .rest "G91 X1 Y(G2; (X7 %)2 ".toList " DONE".toList ") x3".toList (by decide)
  have hpadding : Restyled "G91 X1 Y(G2; (X7 %)2 ;) x3".toList line'.toList := by
    have hline : line'.toList = ['\t'] ++ "G91 X1 Y(G2; (X7 %)2 ;) x3".toList ++ [' '] := by decide
    rw [hline]
    exact .padding _ _ _ (List.forall_mem_singleton.mpr (by decide)) (List.forall_mem_singleton.mpr (by decide))
  have hcomments : Relation.EqvGen Restyled "G91 X1 Y(A)2 ; DONE".toList "G91 X1 Y(G2; (X7 %)2 ;) x3".toList :=
    .trans _ _ _ (.rel _ _ hgroup) (.rel _ _ hrest)
  have hsame : SameCode line line' :=
    .trans _ _ _ (.rel _ _ hletters) (.trans _ _ _ hcomments (.rel _ _ hpadding))
  exact ⟨hsame, by decide +kernel, by decide +kernel, by decide +kernel, by decide +kernel,
    (read_eq_of_sameCode 0 m line).1 line' hsame⟩

end Block

end PartProgram
