import PartProgram.Proofs.Block.Spelling

/-! # Comments spelled on a line

A line spelled from words and the comments of another line has these comments again. Only a comment that is
not closed could lose something, namely blanks at its end; but it stands at the end of a line that has
been trimmed.
-/

namespace PartProgram

open Content (Zone split)

namespace Text

theorem isBlank_of_mem_getLast?_trim (cs : List Char) : ∀ c ∈ (trim cs).getLast?, isBlank c = false := by
  intro c hc
  rw [trim, List.getLast?_reverse] at hc
  have hhead := List.head?_dropWhile_not isBlank (cs.dropWhile isBlank).reverse
  rw [hc] at hhead
  simpa using hhead

/-- Characters without blanks at their ends stay as they are. -/
theorem trim_eq_self {cs : List Char} (hhead : ∀ c ∈ cs.head?, isBlank c = false)
    (hlast : ∀ c ∈ cs.getLast?, isBlank c = false) : trim cs = cs := by
  have hfront : ∀ cs : List Char, (∀ c ∈ cs.head?, isBlank c = false) → cs.dropWhile isBlank = cs := by
    intro cs h
    cases cs with
    | nil => rfl
    | cons c cs => exact List.dropWhile_cons_of_neg (by simp [h c rfl])
  rw [trim, hfront cs hhead, hfront cs.reverse (by rwa [List.head?_reverse]), List.reverse_reverse]

end Text

namespace Content

/-! ### How comments end -/

theorem addComment_getLast? {content : Content} {cs : List Char} (c : Char) (hne : content.comments ≠ [])
    (hnil : cs = [] → content.comments = [[]])
    (h : ∀ last ∈ content.comments.getLast?, last.getLast? = some ')' ∨ last.getLast? = cs.getLast?) :
    ∀ last ∈ (content.addComment c).comments.getLast?,
      last.getLast? = some ')' ∨ last.getLast? = (c :: cs).getLast? := by
  obtain ⟨first, rest, hcomments⟩ := List.exists_cons_of_ne_nil hne
  have hadd : (content.addComment c).comments = (c :: first) :: rest := by simp [addComment, hcomments]
  rw [hadd]
  rw [hcomments] at h hnil
  cases rest with
  | nil =>
      intro last hlast
      obtain rfl : c :: first = last := by simpa using hlast
      rw [List.getLast?_cons, List.getLast?_cons]
      rcases h first rfl with hclosed | hopen
      · exact .inl (by rw [hclosed]; rfl)
      · exact .inr (by rw [hopen])
  | cons second rest =>
      intro last hlast
      have hcs : cs ≠ [] := fun hcs => by simpa using hnil hcs
      rw [List.getLast?_cons_cons] at h hlast
      rw [List.getLast?_cons_of_ne_nil hcs]
      exact h last hlast

/-- The last comment is closed, or it is the end of what has been read. -/
theorem getLast?_comments_split (zone : Zone) (cs : List Char) :
    (zone ≠ .code → (split zone cs).comments ≠ []) ∧
      ∀ last ∈ (split zone cs).comments.getLast?, last.getLast? = some ')' ∨ last.getLast? = cs.getLast? := by
  have hnil : ∀ {zone : Zone} {cs : List Char}, zone ≠ .code → cs = [] → (split zone cs).comments = [[]] := by
    rintro zone _ hzone rfl
    cases zone
    case code => exact absurd rfl hzone
    all_goals rfl
  have hne : ∀ (c : Char) (content : Content), (content.addComment c).comments ≠ [] := by
    intro c content
    rw [addComment]
    split <;> simp
  fun_induction split zone cs with
  | case1 => simp [empty]
  | case2 | case3 => simp [empty, openComment]
  | case4 cs ih => exact ⟨fun _ => hne _ _, addComment_getLast? '(' (ih.1 (by simp)) (hnil (by simp)) ih.2⟩
  | case5 cs _ ih => exact ⟨fun _ => hne _ _, addComment_getLast? ';' (ih.1 (by simp)) (hnil (by simp)) ih.2⟩
  | case6 c cs _ _ ih =>
      refine ⟨by simp, ?_⟩
      cases cs with
      | nil => simp [split, empty, addCode]
      | cons d cs => simpa [addCode] using ih.2
  | case7 cs ih =>
      refine ⟨fun _ => hne _ _, ?_⟩
      have hclosed : ((split .code cs).openComment.addComment ')').comments = [')'] :: (split .code cs).comments := rfl
      rw [hclosed]
      cases cs with
      | nil => simp [split, empty]
      | cons d cs =>
          cases hcomments : (split .code (d :: cs)).comments with
          | nil => simp
          | cons first rest => simpa [hcomments] using ih.2
  | case8 c cs _ ih => exact ⟨fun _ => hne _ _, addComment_getLast? c (ih.1 (by simp)) (hnil (by simp)) ih.2⟩
  | case9 c cs ih => exact ⟨fun _ => hne _ _, addComment_getLast? c (ih.1 (by simp)) (hnil (by simp)) ih.2⟩

/-- No comment of a line ends the comments with a blank. -/
theorem isBlank_of_mem_comments_ofLine (line : String) :
    ∀ last ∈ (ofLine line).comments.getLast?, ∀ c ∈ last.getLast?, Text.isBlank c = false := by
  rw [ofLine]
  split
  · simp [empty]
  · intro last hlast c hc
    rcases (getLast?_comments_split .code _).2 last hlast with hclosed | hopen
    · obtain rfl : ')' = c := by simpa [hclosed] using hc
      decide
    · exact Text.isBlank_of_mem_getLast?_trim line.toList c (hopen ▸ hc)

end Content

/-! ### Comments of a spelled line -/

theorem comments_split_spelled {ws : List Word} (hws : ∀ w ∈ ws, w.Proper) {comments : List (List Char)}
    (hcomments : Content.Comments comments) : (split .code (spelled ws comments)).comments = comments := by
  induction ws with
  | nil => exact (Content.split_comments hcomments).1
  | cons w ws ih =>
      have ih := ih fun w hw => hws w (by simp [hw])
      rw [spelled, List.map_cons, List.cons_append, intercalate_cons_eq, Content.split_append (hws w (by simp)).chars]
      split
      · rename_i hnil
        exact (List.append_eq_nil_iff.mp hnil).2.symm
      · rw [spelled] at ih
        simpa [split, Content.addCode] using ih

theorem getLast?_intercalate {chunks : List (List Char)} (h : ∀ chunk ∈ chunks, chunk ≠ []) :
    ([' '].intercalate chunks).getLast? = chunks.getLast?.bind List.getLast? := by
  induction chunks with
  | nil => rfl
  | cons chunk chunks ih =>
      have ih := ih fun chunk hchunk => h chunk (by simp [hchunk])
      rw [intercalate_cons_eq]
      cases chunks with
      | nil => simp
      | cons next chunks =>
          have hne : [' '].intercalate (next :: chunks) ≠ [] := by
            rw [intercalate_cons_eq]
            simp [h next (by simp)]
          rw [if_neg (by simp), List.getLast?_append, List.getLast?_cons_of_ne_nil hne, List.getLast?_cons_cons, ← ih]
          cases hlast : ([' '].intercalate (next :: chunks)).getLast? with
          | none => exact absurd (List.getLast?_eq_none_iff.mp hlast) hne
          | some c => rfl

/-- A line spelled from words and comments of which the last does not end with a blank is read as it is. -/
theorem trim_spelled {ws : List Word} (hws : ∀ w ∈ ws, w.Proper) {comments : List (List Char)}
    (hcomments : Content.Comments comments)
    (hlast : ∀ last ∈ comments.getLast?, ∀ c ∈ last.getLast?, Text.isBlank c = false) :
    Text.trim (spelled ws comments) = spelled ws comments := by
  refine Text.trim_eq_self (fun c hc => (head?_spelled hws hcomments c hc).1) fun c hc => ?_
  have hchunks : ∀ chunk ∈ ws.map Word.chars ++ comments, chunk ≠ [] := by
    rintro chunk hchunk rfl
    rcases List.mem_append.mp hchunk with hchunk | hchunk
    · simp [Word.chars] at hchunk
    · simpa using hcomments.head_eq _ hchunk
  rw [spelled, getLast?_intercalate hchunks, List.getLast?_append] at hc
  obtain ⟨last, hmem, hc⟩ := Option.bind_eq_some_iff.mp hc
  rcases Option.or_eq_some_iff.mp hmem with hcomment | ⟨-, hword⟩
  · exact hlast last hcomment c hc
  · obtain ⟨w, hw, rfl⟩ := List.mem_map.mp (List.mem_of_getLast? hword)
    exact (hws w hw).isBlank_of_mem_chars c (List.mem_of_getLast? hc)

/-- A line spelled from words and the comments of a line has these comments. -/
theorem Content.comments_ofLine_spelled {ws : List Word} (hws : ∀ w ∈ ws, w.Proper) (line : String) :
    (ofLine (String.ofList (spelled ws (ofLine line).comments))).comments = (ofLine line).comments := by
  have hcomments := comments_ofLine line
  have htrim := trim_spelled hws hcomments (isBlank_of_mem_comments_ofLine line)
  rw [ofLine, String.toList_ofList, htrim]
  split
  · rename_i rest hpercent
    have hhead := head?_spelled hws hcomments
    rw [hpercent] at hhead
    exact absurd rfl (hhead '%' rfl).2
  · exact comments_split_spelled hws hcomments

/-! ### Markers in comments -/

namespace Markers

/-- If the marker is on the line, one of the comments has it. -/
def InComment (marker line : String) : Prop :=
  onLine marker line = true → ∃ comment ∈ (Content.ofLine line).comments, onLine marker (String.ofList comment) = true

instance (marker line : String) : Decidable (InComment marker line) := inferInstanceAs (Decidable (_ → _))

theorem onLine_of_mem_comments {marker line : String} {comment : List Char}
    (hcomment : comment ∈ (Content.ofLine line).comments) (h : onLine marker (String.ofList comment) = true) :
    onLine marker line = true := by
  rw [onLine, Text.occursIn_iff, String.toList_ofList] at h
  rw [onLine, Text.occursIn_iff]
  exact h.trans (Text.upper_infix (Content.infix_of_mem_comments hcomment))

end Markers

end PartProgram
