import Mathlib.Data.List.Infix
import PartProgram.Text.Lines

/-! # Texts as lists of lines

A text made of lines is read back as these lines, and the lines of a text whose carriage returns all
belong to line ends contain no carriage return.
-/

namespace PartProgram.Text

/-- The string is a single line: it holds no character of a line end. -/
def IsLine (line : String) : Prop := ∀ c ∈ line.toList, c ≠ '\n' ∧ c ≠ '\r'

instance (line : String) : Decidable (IsLine line) :=
  List.decidableBAll (fun c => c ≠ '\n' ∧ c ≠ '\r') line.toList

theorem isLine_ofList {cs : List Char} (h : ∀ c ∈ cs, c ≠ '\n' ∧ c ≠ '\r') : IsLine (String.ofList cs) := by
  simpa [IsLine] using h

theorem IsLine.append {a b : String} (ha : IsLine a) (hb : IsLine b) : IsLine (a ++ b) := by
  intro c hc
  rw [String.toList_append] at hc
  rcases List.mem_append.mp hc with hc | hc
  · exact ha c hc
  · exact hb c hc

/-- Lines joined by blanks are one line. -/
theorem isLine_intercalate {ls : List String} (h : ∀ line ∈ ls, IsLine line) :
    IsLine (" ".intercalate ls) := by
  induction ls with
  | nil => simp [IsLine]
  | cons line ls ih =>
      have hline := h line (by simp)
      have hls := ih fun line hl => h line (by simp [hl])
      by_cases hnil : ls = []
      · simpa [hnil] using hline
      · rw [String.intercalate_cons_of_ne_nil hnil]
        exact (hline.append (by simp [IsLine])).append hls

/-- Every carriage return is directly followed by a line feed. -/
def ReturnsEndLines (text : String) : Prop :=
  ∀ cs ∈ text.toList.tails, cs.head? = some '\r' → cs.tail.head? = some '\n'

instance (text : String) : Decidable (ReturnsEndLines text) :=
  List.decidableBAll (fun cs : List Char => cs.head? = some '\r' → cs.tail.head? = some '\n') text.toList.tails

theorem ReturnsEndLines.head?_eq {text : String} (h : ReturnsEndLines text) {before after : List Char}
    (heq : text.toList = before ++ '\r' :: after) : after.head? = some '\n' :=
  h ('\r' :: after) ((List.mem_tails _ _).mpr ⟨before, heq.symm⟩) rfl

theorem dropReturn_of_not_mem {cs : List Char} (h : '\r' ∉ cs) : dropReturn cs = cs := by
  rw [dropReturn, if_neg]
  intro hlast
  exact h (List.mem_of_getLast? hlast)

theorem toList_ofLines (ls : List String) :
    (ofLines ls).toList = ls.flatMap fun line => line.toList ++ ['\n'] := by
  induction ls with
  | nil => rfl
  | cons line ls ih =>
      rw [ofLines, List.map_cons, String.join_cons, List.flatMap_cons, ← ih, ofLines]
      simp

theorem splitOn_toList_ofLines {ls : List String} (h : ∀ line ∈ ls, '\n' ∉ line.toList) :
    (ofLines ls).toList.splitOn '\n' = ls.map String.toList ++ [[]] := by
  rw [toList_ofLines]
  induction ls with
  | nil => rfl
  | cons line ls ih =>
      rw [List.flatMap_cons, List.append_assoc, List.singleton_append,
        List.splitOn_append_cons_self_of_not_mem (h line (by simp)),
        ih fun line hl => h line (by simp [hl])]
      rfl

/-- Lines without line feeds are read back, each without a carriage return at its end. -/
theorem lines_ofLines {ls : List String} (h : ∀ line ∈ ls, '\n' ∉ line.toList) :
    lines (ofLines ls) = ls.map fun line => String.ofList (dropReturn line.toList) := by
  rw [lines, splitOn_toList_ofLines h]
  simp

theorem lines_ofLines_of_isLine {ls : List String} (h : ∀ line ∈ ls, IsLine line) :
    lines (ofLines ls) = ls := by
  have hdrop : ∀ line ∈ ls, String.ofList (dropReturn line.toList) = id line := by
    intro line hl
    rw [dropReturn_of_not_mem fun hmem => (h line hl _ hmem).2 rfl, String.ofList_toList, id]
  rw [lines_ofLines fun line hl hmem => (h line hl _ hmem).1 rfl, List.map_congr_left hdrop,
    List.map_id]

/-! ### The lines of a given text -/

theorem not_mem_of_mem_splitOn {c : Char} {cs piece : List Char} (h : piece ∈ cs.splitOn c) :
    c ∉ piece := by
  induction cs generalizing piece with
  | nil =>
      obtain rfl : piece = [] := by simpa using h
      simp
  | cons d cs ih =>
      rw [List.splitOn_cons_eq_if_modifyHead] at h
      split at h
      · rcases List.mem_cons.mp h with rfl | h
        · simp
        · exact ih h
      · rename_i hd
        obtain ⟨first, rest, hsplit⟩ := List.exists_cons_of_ne_nil (List.splitOn_ne_nil c cs)
        rw [hsplit, List.modifyHead_cons] at h
        rcases List.mem_cons.mp h with rfl | h
        · have hfirst : c ∉ first := ih (by simp [hsplit])
          have hcd : c ≠ d := by
            rintro rfl
            simp at hd
          simp [hcd, hfirst]
        · exact ih (by simp [hsplit, h])

theorem mem_of_mem_dropReturn {cs : List Char} {c : Char} (h : c ∈ dropReturn cs) : c ∈ cs := by
  rw [dropReturn] at h
  split at h
  · exact List.dropLast_subset cs h
  · exact h

theorem dropReturn_eq_self_iff {cs : List Char} : dropReturn cs = cs ↔ cs.getLast? ≠ some '\r' := by
  rw [dropReturn]
  split
  · rename_i hlast
    have hne : cs ≠ [] := by
      rintro rfl
      simp at hlast
    have hlength := List.length_pos_iff.mpr hne
    refine ⟨fun hsame => ?_, fun hno => absurd hlast hno⟩
    have hshorter := congrArg List.length hsame
    rw [List.length_dropLast] at hshorter
    omega
  · rename_i hlast
    exact ⟨fun _ => hlast, fun _ => rfl⟩

/-- Without the carriage returns at their ends, lines make the same text only if there are none. -/
theorem ofLines_dropReturn_eq_iff {ls : List String} (h : ∀ line ∈ ls, '\n' ∉ line.toList) :
    ofLines (ls.map fun line => String.ofList (dropReturn line.toList)) = ofLines ls ↔
      ∀ line ∈ ls, line.toList.getLast? ≠ some '\r' := by
  have hdropped : ∀ line ∈ ls.map fun line => String.ofList (dropReturn line.toList), '\n' ∉ line.toList := by
    simp only [List.mem_map, forall_exists_index, and_imp, forall_apply_eq_imp_iff₂, String.toList_ofList]
    exact fun line hline hmem => h line hline (mem_of_mem_dropReturn hmem)
  constructor
  · intro heq line hline
    have hsplit := congrArg (fun text : String => text.toList.splitOn '\n') heq
    rw [splitOn_toList_ofLines h, splitOn_toList_ofLines hdropped, List.map_map] at hsplit
    have hlines := List.map_inj_left.mp (List.append_cancel_right hsplit) line hline
    rw [← dropReturn_eq_self_iff]
    simpa using hlines
  · intro hlast
    congr 1
    conv_rhs => rw [← List.map_id ls]
    refine List.map_congr_left fun line hline => ?_
    rw [dropReturn_eq_self_iff.mpr (hlast line hline), String.ofList_toList, id]

/-- A line of a text is a piece between line feeds, without the carriage return at its end if it has
been ended by a line feed. -/
theorem mem_lines {text line : String} (h : line ∈ lines text) :
    (∃ piece ∈ (text.toList.splitOn '\n').dropLast, line = String.ofList (dropReturn piece)) ∨
      ∃ piece, (text.toList.splitOn '\n').getLast? = some piece ∧ line = String.ofList piece := by
  have hended : line ∈ (text.toList.splitOn '\n').dropLast.map (fun cs => String.ofList (dropReturn cs)) →
      ∃ piece ∈ (text.toList.splitOn '\n').dropLast, line = String.ofList (dropReturn piece) := by
    intro hl
    obtain ⟨piece, hp, hline⟩ := List.mem_map.mp hl
    exact ⟨piece, hp, hline.symm⟩
  rw [lines] at h
  split at h
  · exact .inl (hended h)
  · exact .inl (hended h)
  · rename_i piece _ hlast
    rcases List.mem_append.mp h with h | h
    · exact .inl (hended h)
    · exact .inr ⟨piece, hlast, by simpa using h⟩

/-- No line of a text holds a line feed. -/
theorem not_mem_of_mem_lines {text line : String} (h : line ∈ lines text) : '\n' ∉ line.toList := by
  rcases mem_lines h with ⟨piece, hp, rfl⟩ | ⟨piece, hlast, rfl⟩
  · rw [String.toList_ofList]
    exact fun hmem => not_mem_of_mem_splitOn (List.dropLast_subset _ hp)
      (mem_of_mem_dropReturn hmem)
  · rw [String.toList_ofList]
    exact not_mem_of_mem_splitOn (List.mem_of_getLast? hlast)

/-- Where every carriage return is followed by a line feed, a piece between line feeds has one at its
end only, and only if a line feed ends the piece. -/
theorem not_mem_dropReturn {piece rest : List Char} (hpiece : '\n' ∉ piece)
    (hreturns : ∀ before after, piece ++ rest = before ++ '\r' :: after → after.head? = some '\n') :
    '\r' ∉ dropReturn piece ∧ (rest = [] → '\r' ∉ piece) := by
  have hlast : ∀ before after, piece = before ++ '\r' :: after → after = [] ∧ rest ≠ [] := by
    rintro before after rfl
    have hhead := hreturns before (after ++ rest) (by simp)
    cases after with
    | nil => exact ⟨rfl, by rintro rfl; simp at hhead⟩
    | cons c after =>
        obtain rfl : c = '\n' := by simpa using hhead
        simp at hpiece
  refine ⟨?_, ?_⟩
  · intro hmem
    obtain ⟨before, after, rfl⟩ := List.append_of_mem (mem_of_mem_dropReturn hmem)
    obtain ⟨rfl, -⟩ := hlast before after rfl
    have hdrop : dropReturn (before ++ ['\r']) = before := by simp [dropReturn]
    rw [hdrop] at hmem
    obtain ⟨before', after', rfl⟩ := List.append_of_mem hmem
    obtain ⟨habs, -⟩ := hlast before' (after' ++ ['\r']) (by simp)
    simp at habs
  · intro hrest hmem
    obtain ⟨before, after, rfl⟩ := List.append_of_mem hmem
    exact (hlast before after rfl).2 hrest

theorem not_mem_of_pieces {pieces : List (List Char)} (hpieces : ∀ piece ∈ pieces, '\n' ∉ piece)
    (hreturns : ∀ before after, ['\n'].intercalate pieces = before ++ '\r' :: after →
      after.head? = some '\n') :
    (∀ piece ∈ pieces.dropLast, '\r' ∉ dropReturn piece) ∧
      ∀ piece, pieces.getLast? = some piece → '\r' ∉ piece := by
  induction pieces with
  | nil => simp
  | cons piece pieces ih =>
      cases pieces with
      | nil =>
          have hreturns' : ∀ before after, piece ++ [] = before ++ '\r' :: after →
              after.head? = some '\n' := by
            simpa using hreturns
          simpa using (not_mem_dropReturn (hpieces piece (by simp)) hreturns').2 rfl
      | cons next pieces =>
          have hsplit : ['\n'].intercalate (piece :: next :: pieces) =
              piece ++ ('\n' :: ['\n'].intercalate (next :: pieces)) := by
            simp [List.intercalate]
          rw [hsplit] at hreturns
          obtain ⟨hdrop, -⟩ := not_mem_dropReturn (hpieces piece (by simp)) hreturns
          obtain ⟨hinit, hlast⟩ := ih (fun p hp => hpieces p (by simp [hp])) (by
            intro before after heq
            exact hreturns (piece ++ '\n' :: before) after (by simp [heq]))
          refine ⟨?_, by simpa using hlast⟩
          intro p hp
          rw [List.dropLast_cons_cons] at hp
          rcases List.mem_cons.mp hp with rfl | hp
          · exact hdrop
          · exact hinit p hp

/-- Where all carriage returns belong to line ends, lines hold none. -/
theorem isLine_of_mem_lines {text : String} (htext : ReturnsEndLines text) :
    ∀ line ∈ lines text, IsLine line := by
  intro line hline c hc
  have hfeed : c ≠ '\n' := fun h => not_mem_of_mem_lines hline (h ▸ hc)
  refine ⟨hfeed, ?_⟩
  rintro rfl
  have hpieces : ∀ piece ∈ text.toList.splitOn '\n', '\n' ∉ piece := fun _ => not_mem_of_mem_splitOn
  obtain ⟨hinit, hlast⟩ := not_mem_of_pieces hpieces (by
    rw [List.intercalate_splitOn]
    exact fun _ _ => htext.head?_eq)
  rcases mem_lines hline with ⟨piece, hp, rfl⟩ | ⟨piece, hp, rfl⟩
  · exact hinit piece hp (by simpa using hc)
  · exact hlast piece hp (by simpa using hc)

end PartProgram.Text
