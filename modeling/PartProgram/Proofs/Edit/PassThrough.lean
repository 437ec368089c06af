import PartProgram.Proofs.Block.SingleLine
import PartProgram.Proofs.Edit.Calls
import PartProgram.Proofs.Program.Running

/-! # Lines that are left alone

An edit copies the lines that have none of the words it rewrites, character by character. A line that
is written anew keeps all words that have no part in the path.
-/

namespace PartProgram

variable {α : Type} [Scalar α]

/-! ### Lines written anew -/

variable (α) in
/-- The line has the extra words in their order; the words between them select a motion or are numbers
of the path. -/
def ExtraWords.KeptIn (extra : ExtraWords) (format : NumberFormat) (line : String) : Prop :=
  ∃ (motion : Motion) (numbers : List (Char × α)), (∀ n ∈ numbers, IsPathLetter n.1) ∧
    line = " ".intercalate
      (extra.sequence.toList ++ (motion.code?.map fun code => s!"G{code}").toList ++ extra.gWords
        ++ numbers.map (fun n => n.1.toString ++ format.render n.2) ++ extra.others
        ++ extra.comment.toList)

namespace Block

/-- A changed block is written with its extra words. -/
theorem keptIn_write {b : Block α} (hm : b.modified = true) (format : NumberFormat) (e : Emitted α) :
    b.extra.KeptIn α format (b.write format e).2 := by
  refine ⟨b.motion, b.numbers e, b.isPathLetter_of_mem_numbers e, ?_⟩
  have hspeed : ∀ (letter : Char) (v : α) (needed : Bool),
      ((if needed then some v else none).map fun v => letter.toString ++ format.render v).toList =
        (if needed then [(letter, v)] else []).map fun n => n.1.toString ++ format.render n.2 := by
    intro letter v needed
    cases needed <;> rfl
  have hline : (b.write format e).2 = (b.draft e).1.render format := by
    rw [write, if_pos hm]
  rw [hline, draft_eq, Draft.render]
  simp only [Draft.words, hspeed, numbers, List.map_append, List.map_map, Option.toList_map, Function.comp_def,
    List.append_assoc]

theorem write_of_unmodified {b : Block α} (hm : b.modified = false) (format : NumberFormat) (e : Emitted α) :
    (b.write format e).2 = b.text := by
  rw [write, if_neg (by simp [hm])]

end Block

/-! ### What an edit rewrites -/

/-- The edit rewrites a word of the line. -/
def Edit.rewrites : Edit α → Block α → Bool
  | .mirror m, b =>
    (b.axes.get m.axis).isSome || (match m with | .x => b.i | .y => b.j).isSome
      || (b.motion.isArc && b.hasCoordinates)
  | .turn _, b | .stretch _ _, b => b.x.isSome || b.y.isSome || b.i.isSome || b.j.isSome
  | .offset _ _, b => b.x.isSome || b.y.isSome
  | .dropZ, b => b.z.isSome
  | .follow _, _ => true

namespace Block

/-- The second block is the first one edited. It is marked as changed only if the first one was, or if
there was something to edit. -/
structure Touched (rewrites : Bool) (b b' : Block α) : Prop where
  edit : b.EditOf b'
  marked : b'.modified = true → b.modified = true ∨ b.isEditable = true ∧ rewrites = true

omit [Scalar α] in
theorem Touched.refl (rewrites : Bool) (b : Block α) : b.Touched rewrites b := ⟨.refl b, .inl⟩

variable {b : Block α}

omit [Scalar α] in
/-- A block that an edit function leaves alone unless it has something to edit. -/
theorem touched_of_eq {rewrites : Bool} {b' : Block α} (hedit : b.EditOf b') (heditable : b.isEditable = true)
    (h : rewrites = false → b' = b) : b.Touched rewrites b' := by
  refine ⟨hedit, fun hm => ?_⟩
  cases hr : rewrites with
  | false => exact .inl (h hr ▸ hm)
  | true => exact .inr ⟨heditable, rfl⟩

theorem mirrored_of_not_rewrites {m : MirrorAxis} (sum : α) (h : (Edit.mirror m : Edit α).rewrites b = false) :
    b.mirrored m sum = b := by
  have hidle : b.isMirrored m = false := by
    cases m <;> simpa only [isMirrored, mirrorOffset, Edit.rewrites] using h
  simp [mirrored, hidle]

theorem shifted_of_not_hasXY (h : b.hasXY = false) (delta : Point α) (pending : Pending) :
    (b.shifted delta pending).2 = b := by
  have hcarries : b.carriesShift pending = false := by simp [carriesShift, h]
  rw [shifted]
  simp only [h, hcarries, Bool.false_eq_true, if_false]
  split <;> rfl

/-- The line is copied unless the edit may change it and rewrites a word of it; a line written anew has
the extra words of the block. -/
structure Reproduces (format : NumberFormat) (rewrites : Bool) (b : Block α) (line : String) : Prop where
  copied : (b.isEditable && rewrites) = false → line = b.text
  kept : line = b.text ∨ b.extra.KeptIn α format line

/-- The line of a block in a listing: reproduced if the block was not marked, and in any case with its
extra words. -/
structure Listed (format : NumberFormat) (rewrites : Bool) (b : Block α) (line : String) : Prop where
  reproduces : b.modified = false → b.Reproduces format rewrites line
  kept : b.modified = true → b.extra.KeptIn α format line

theorem Touched.reproduces {rewrites : Bool} {b' : Block α} (h : b.Touched rewrites b')
    (hm : b.modified = false) (format : NumberFormat) (e : Emitted α) :
    b.Reproduces format rewrites (b'.write format e).2 := by
  cases hm' : b'.modified with
  | false =>
      have hcopied : (b'.write format e).2 = b.text := by
        rw [write_of_unmodified hm', h.edit.text]
      exact ⟨fun _ => hcopied, .inl hcopied⟩
  | true =>
      refine ⟨fun hidle => ?_, .inr (h.edit.extra ▸ keptIn_write hm' format e)⟩
      rcases h.marked hm' with hmarked | ⟨heditable, hrewrites⟩
      · simp [hm] at hmarked
      · simp [heditable, hrewrites] at hidle

theorem Touched.listed {rewrites : Bool} {b' : Block α} (h : b.Touched rewrites b') (format : NumberFormat)
    (e : Emitted α) : b.Listed format rewrites (b'.write format e).2 where
  reproduces hm := h.reproduces hm format e
  kept hm := h.edit.extra ▸ keptIn_write (h.edit.modified hm) format e

end Block

namespace Edit

variable {edit : Edit α}

/-- Every edit but an offset edits the lines on which it rewrites a word. -/
theorem touched_change (h : ∀ anchor extra, edit ≠ .offset anchor extra) (p : Program α)
    (settings : Settings α) :
    List.Forall₂ (fun b => b.Touched (edit.rewrites b)) p.lines (edit.change p settings).lines := by
  have hlines : ∀ {f : Block α → Block α}, (∀ b, Block.EditOf b (f b)) →
      (∀ b, edit.rewrites b = false → f b = b) →
      List.Forall₂ (fun b => b.Touched (edit.rewrites b)) p.lines (p.editLines f).lines := by
    intro f hedit hf
    apply p.forall₂_editLines
    intro b _
    split
    · rename_i heditable
      exact Block.touched_of_eq (hedit b) heditable (hf b)
    · exact .refl _ b
  cases edit with
  | mirror axis => exact hlines (Block.editOf_mirrored axis _) fun b => Block.mirrored_of_not_rewrites _
  | turn s =>
      apply p.forall₂_turn s fun b => .refl _ b
      intro b copies heditable
      refine Block.touched_of_eq (Block.editOf_turned s b copies) heditable fun hr => ?_
      have hplane : b.writesPlane = false := hr
      simp [Block.turned, hplane]
  | stretch x y =>
      refine hlines (Block.editOf_stretched _ _) fun b hr => ?_
      have hplane : b.writesPlane = false := hr
      simp [Block.stretched, hplane]
  | offset anchor extra => exact absurd rfl (h anchor extra)
  | dropZ =>
      refine hlines Block.editOf_withoutZ fun b hr => ?_
      rw [rewrites] at hr
      simp [Block.withoutZ, hr]
  | follow surface => exact List.forall₂_same.mpr fun b _ => .refl _ b

/-- Shifting edits the lines that have X or Y. -/
theorem touched_shiftLines (p : Program α) (delta : Point α) :
    List.Forall₂ (fun b => b.Touched b.hasXY) p.lines (p.shiftLines delta).lines := by
  apply p.forall₂_shiftLines delta fun b => .refl _ b
  intro pending b heditable
  exact Block.touched_of_eq (Block.editOf_shifted delta pending b) heditable fun hr =>
    Block.shifted_of_not_hasXY hr delta pending

end Edit

/-! ### The lines of the text -/

variable (α) in
/-- The line selects relative distances. -/
def selectsRelative (line : String) : Prop := ∃ w ∈ wordsOf line, w.distance? α = some false

/-- A program with relative distances has a line that selects them. -/
theorem Program.exists_selectsRelative {lines : List String} {settings : Settings α} {machine : Machine α}
    (h : (ofLines lines settings machine).containsRelative = true) :
    ∃ line ∈ lines, selectsRelative α line := by
  obtain ⟨_, hruns⟩ := Source.runs_ofLines (α := α) lines settings.calls settings.markers
  set s := Source.ofLines α lines settings.calls settings.markers
  have hpass : ∀ (ns : List ℕ) (m : Modal α), (pass s.readAt m ns).1.containsRelative = true →
      m.containsRelative = true ∨ ∃ n ∈ ns, selectsRelative α (s.lines.getD n "") := by
    intro ns
    induction ns with
    | nil => exact fun m hm => .inl hm
    | cons n ns ih =>
        intro m hm
        rw [pass_cons] at hm
        rcases ih _ hm with hm | ⟨k, hk, hline⟩
        · rw [Source.readAt, Block.read_fst, Modal.after, Bool.or_eq_true] at hm
          rcases hm with hm | hm
          · exact .inl hm
          · obtain ⟨w, hw, hdistance⟩ := List.any_eq_true.mp hm
            exact .inr ⟨n, by simp, w, hw, by simpa using hdistance⟩
        · exact .inr ⟨k, by simp [hk], hline⟩
  have hlast : (pass s.readAt (Modal.initial : Modal α) ((s.order α).map Prod.snd)).1.containsRelative = true := by
    rw [hruns.read]
    exact h
  rcases hpass _ _ hlast with hinitial | ⟨n, -, w, hw, hdistance⟩
  · simp [Modal.initial] at hinitial
  · cases hline : lines[n]? with
    | none =>
        have hempty : s.lines.getD n "" = "" := by simp [s, Source.ofLines, hline]
        have hwords : wordsOf "" = [] := by decide
        simp [hempty, hwords] at hw
    | some line =>
        have hget : s.lines.getD n "" = line := by simp [s, Source.ofLines, hline]
        exact ⟨line, List.mem_of_getElem? hline, w, hget ▸ hw, hdistance⟩

theorem Modal.containsRelative_after {m : Modal α} (h : m.containsRelative = true) (line : String) :
    (m.after line).containsRelative = true := by
  rw [after, h, Bool.true_or]

/-- Relative distances are in effect only after a line has selected them. -/
theorem Modal.absolute_after {m : Modal α} (h : m.absolute = true ∨ m.containsRelative = true) (line : String) :
    (m.after line).absolute = true ∨ (m.after line).containsRelative = true := by
  rcases h with habsolute | hcontains
  · rcases Word.latest_eq_or (Word.distance? α) m.absolute (wordsOf line) with hkept | ⟨w, hw, hword⟩
    · exact .inl (hkept.trans habsolute)
    · cases hlatest : Word.latest (Word.distance? α) m.absolute (wordsOf line) with
      | true => exact .inl hlatest
      | false =>
          have hselects : (wordsOf line).any (fun w => w.distance? α == some false) = true :=
            List.any_eq_true.mpr ⟨w, hw, by rw [hword, hlatest]; rfl⟩
          exact .inr (by rw [after, hselects, Bool.or_true])
  · exact .inr (containsRelative_after hcontains line)

/-- A program with a step in relative distances is known to have them. -/
theorem Program.containsRelative_of_mem_executed {lines : List String} {settings : Settings α} {machine : Machine α}
    {b : Block α} (hb : b ∈ (ofLines lines settings machine).executed) (h : b.absolute = false) :
    (ofLines lines settings machine).containsRelative = true := by
  obtain ⟨_, hruns⟩ := Source.runs_ofLines (α := α) lines settings.calls settings.markers
  set s := Source.ofLines α lines settings.calls settings.markers
  let Known (before : List (Block α)) (m : Modal α) : Prop := (m.absolute = true ∨ m.containsRelative = true) ∧
    ∀ b ∈ before, b.absolute = false → m.containsRelative = true
  have hstep : ∀ before m n, Known before m → Known (before ++ [(s.readAt m n).2]) (s.readAt m n).1 := by
    rintro before m n ⟨hmode, hbefore⟩
    rw [Source.readAt, Block.read_fst, Block.read_snd]
    refine ⟨Modal.absolute_after hmode _, fun b hb hrelative => ?_⟩
    rcases List.mem_append.mp hb with hb | hb
    · exact Modal.containsRelative_after (hbefore b hb hrelative) _
    · obtain rfl := List.mem_singleton.mp hb
      refine (Modal.absolute_after hmode _).resolve_left ?_
      rw [Bool.not_eq_true]
      exact hrelative
  obtain ⟨-, hlast⟩ := pass_induction hstep [] (s := (Modal.initial : Modal α)) ⟨.inl rfl, by simp⟩
    ((s.order α).map Prod.snd)
  have hmem := List.mem_map_of_mem (f := Block.asRead) hb
  rw [(executed_ofLines lines settings machine).1] at hmem
  have hcontains := hlast b.asRead (by simpa using hmem) h
  rwa [hruns.read] at hcontains

/-- The lines of the text that an edit gives. An offset of a program with relative distances may add
the move that carries it: after a retract, or, selecting relative distances itself, in front of
coordinates, which are then written anew. -/
inductive Edit.PassesThrough (edit : Edit α) (format : NumberFormat) (comment : String) (relative : Prop) :
    List (Block α) → List String → Prop where
  | lineByLine {bs lines} (h : List.Forall₂ (fun b => b.Reproduces format (edit.rewrites b)) bs lines) :
      PassesThrough edit format comment relative bs lines
  | afterRetract {before after lines lines'} (move : String)
      (hoffset : ∃ anchor extra, edit = .offset anchor extra) (hrelative : relative)
      (hbefore : List.Forall₂ (fun b => b.Reproduces format (edit.rewrites b)) before lines)
      (hafter : List.Forall₂ (fun b => b.Reproduces format (edit.rewrites b)) after lines') :
      PassesThrough edit format comment relative (before ++ after) (lines ++ move :: lines')
  | atCoordinates {before b after lines move line lines'}
      (hoffset : ∃ anchor extra, edit = .offset anchor extra) (hrelative : relative)
      (hbefore : List.Forall₂ (fun b => b.Reproduces format (edit.rewrites b)) before lines)
      (hmove : ∃ feed spindle : α,
        (offsetMove ⟨before.length, true⟩ comment feed spindle).extra.KeptIn α format move)
      (hline : line = b.text ∨ b.extra.KeptIn α format line)
      (hafter : List.Forall₂ (fun b => b.Reproduces format (edit.rewrites b)) after lines') :
      PassesThrough edit format comment relative (before ++ b :: after) (lines ++ move :: line :: lines')

namespace Edit

variable {edit : Edit α} {p : Program α}

/-- Lines that no edit has marked are reproduced. -/
theorem reproduces_of_listed {rewrites : Block α → Bool} {format : NumberFormat} {bs : List (Block α)}
    {lines : List String} (hm : ∀ b ∈ bs, b.modified = false)
    (h : List.Forall₂ (fun b => b.Listed format (rewrites b)) bs lines) :
    List.Forall₂ (fun b => b.Reproduces format (rewrites b)) bs lines :=
  ((List.forall₂_and_left bs _).mpr ⟨hm, h⟩).imp fun _ _ hb => hb.2.reproduces hb.1

theorem listed_pass {rewrites : Block α → Bool} {bs bs' : List (Block α)}
    (h : List.Forall₂ (fun b => b.Touched (rewrites b)) bs bs') (format : NumberFormat) (e : Emitted α) :
    List.Forall₂ (fun b => b.Listed format (rewrites b)) bs (pass (Block.write format) e bs').2 :=
  forall₂_pass_of_forall₂ (fun e _ _ hb => hb.listed format e) e h

/-- The lines that are listed with the move of an offset. -/
theorem passesThrough_of_withMove {format : NumberFormat} {comment : String} {relative : Prop}
    {bs moved : List (Block α)} {lines : List String} (hoffset : ∃ anchor extra, edit = .offset anchor extra)
    (hrelative : relative) (hm : ∀ b ∈ bs, b.modified = false) (hmove : WithMove comment bs moved)
    (h : List.Forall₂ (fun b => b.Listed format (edit.rewrites b)) moved lines) :
    edit.PassesThrough format comment relative bs lines := by
  cases hmove with
  | unchanged => exact .lineByLine (reproduces_of_listed hm h)
  | afterRetract before b after hb =>
      obtain ⟨lines₁, rest, rfl, hbefore, hrest⟩ := exists_append_of_forall₂ h
      obtain ⟨line, rest, hline, htail, rfl⟩ := List.forall₂_cons_left_iff.mp hrest
      obtain ⟨move, lines₂, -, hafter, rfl⟩ := List.forall₂_cons_left_iff.mp htail
      have hretract : List.Forall₂ (fun b => b.Listed format (edit.rewrites b)) (before ++ [b])
          (lines₁ ++ [line]) :=
        List.rel_append hbefore (.cons hline .nil)
      have hunmarked : ∀ b' ∈ before ++ [b], b'.modified = false := by
        intro b' hb'
        rcases List.mem_append.mp hb' with hb' | hb'
        · exact hm b' (by simp [hb'])
        · exact hm b' (by simp [List.mem_singleton.mp hb'])
      have hpassed : edit.PassesThrough format comment relative ((before ++ [b]) ++ after)
          ((lines₁ ++ [line]) ++ move :: lines₂) :=
        .afterRetract move hoffset hrelative (reproduces_of_listed hunmarked hretract)
          (reproduces_of_listed (fun b hb => hm b (by simp [hb])) hafter)
      simpa using hpassed
  | atCoordinates before b after habsolute hb =>
      obtain ⟨lines₁, rest, rfl, hbefore, hrest⟩ := exists_append_of_forall₂ h
      obtain ⟨move, rest, hmove, htail, rfl⟩ := List.forall₂_cons_left_iff.mp hrest
      obtain ⟨line, lines₂, hline, hafter, rfl⟩ := List.forall₂_cons_left_iff.mp htail
      exact .atCoordinates hoffset hrelative
        (reproduces_of_listed (fun b hb => hm b (by simp [hb])) hbefore) ⟨_, _, hmove.kept rfl⟩
        (.inr (hline.kept rfl)) (reproduces_of_listed (fun b hb => hm b (by simp [hb])) hafter)

/-- The listing of an edited program has the lines of the program, and at most the move of an offset. -/
theorem passesThrough_change (hfollow : ∀ surface, edit ≠ .follow surface) {relative : Prop}
    (hm : ∀ b ∈ p.lines, b.modified = false) (hrelative : p.containsRelative = true → relative)
    (settings : Settings α) :
    edit.PassesThrough settings.format settings.markers.offsetMoveComment relative p.lines
      (pass (Block.write settings.format) Emitted.atStart (edit.change p settings).lines).2 := by
  by_cases hoffset : ∃ anchor extra, edit = .offset anchor extra
  · have hlisted : List.Forall₂ (fun b => b.Listed settings.format (edit.rewrites b))
        (p.withOffsetMove settings.markers.offsetMoveComment).lines
        (pass (Block.write settings.format) Emitted.atStart (edit.change p settings).lines).2 := by
      obtain ⟨anchor, extra, rfl⟩ := hoffset
      exact listed_pass (touched_shiftLines _ _) _ _
    by_cases hcontains : p.containsRelative = true
    · exact passesThrough_of_withMove hoffset (hrelative hcontains) hm (p.withMove_lines _) hlisted
    · have hunmoved : p.withOffsetMove settings.markers.offsetMoveComment = p := by
        simp [Program.withOffsetMove, hcontains]
      rw [hunmoved] at hlisted
      exact .lineByLine (reproduces_of_listed hm hlisted)
  · simp only [not_exists] at hoffset
    exact .lineByLine (reproduces_of_listed hm (listed_pass (touched_change hoffset p settings) _ _))

end Edit

/-! ### Arcs and long moves -/

namespace Block

/-- The line is an arc with an offset, or a straight cut that is longer than a step. -/
def isCut (maxStep : α) (b : Block α) : Bool :=
  b.motion.isArc && (b.i.isSome || b.j.isSome) || b.isLong maxStep

/-- A line that is cut gives way to several, of which the first one has the extra words; any other line
is copied. -/
inductive Linearizes (format : NumberFormat) (maxStep : α) (b : Block α) : List String → Prop where
  | copied (h : (b.isEditable && b.isCut maxStep) = false) : Linearizes format maxStep b [b.text]
  | cut {first : String} {rest : List String} (h : (b.isEditable && b.isCut maxStep) = true)
      (hfirst : b.extra.KeptIn α format first)
      (hrest : ∀ line ∈ rest, ({} : ExtraWords).KeptIn α format line) :
      Linearizes format maxStep b (first :: rest)

/-- The cut of a line that gives way to its pieces. -/
def cut? (maxStep : α) (places : ℕ) (b : Block α) : Option (Cut α) :=
  if b.isEditable then
    match b.place.arc with
    | some arc => some (b.arcCut arc maxStep places)
    | none => if b.isLong maxStep then some (b.lineCut maxStep places) else none
  else none

theorem linearized_eq_cut? (maxStep : α) (places : ℕ) (b : Block α) :
    b.linearized maxStep (some maxStep) places = (b.cut? maxStep places).elim [b] Cut.pieces := by
  cases heditable : b.isEditable with
  | false => simp [linearized, cut?, heditable]
  | true =>
      cases harc : b.place.arc with
      | some arc => simp [linearized, cut?, heditable, harc, flattenArc]
      | none => cases hlong : b.isLong maxStep <;> simp [linearized, cut?, heditable, harc, splitLine, hlong]

section

variable {b : Block α} {maxStep : α} {places : ℕ} {c : Cut α}

theorem isSome_cut? (harc : b.place.arc.isSome = (b.motion.isArc && (b.i.isSome || b.j.isSome))) (maxStep : α)
    (places : ℕ) : (b.cut? maxStep places).isSome = (b.isEditable && b.isCut maxStep) := by
  rw [isCut, ← harc, cut?]
  cases b.isEditable <;> cases b.place.arc <;> cases b.isLong maxStep <;> rfl

/-- A cut is that of an arc or that of a long move. -/
theorem eq_of_cut? (h : b.cut? maxStep places = some c) :
    b.isEditable = true ∧ ((∃ arc, b.place.arc = some arc ∧ c = b.arcCut arc maxStep places) ∨
      b.isLong maxStep = true ∧ c = b.lineCut maxStep places) := by
  cases heditable : b.isEditable with
  | false => simp [cut?, heditable] at h
  | true =>
      refine ⟨rfl, ?_⟩
      cases harc : b.place.arc with
      | some arc => exact .inl ⟨arc, rfl, by simpa [cut?, heditable, harc, eq_comm] using h⟩
      | none =>
          cases hlong : b.isLong maxStep with
          | false => simp [cut?, heditable, harc, hlong] at h
          | true => exact .inr ⟨rfl, by simpa [cut?, heditable, harc, hlong, eq_comm] using h⟩

/-- A cut leads to the end of the line that it belongs to. -/
theorem source_of_cut? (h : b.cut? maxStep places = some c) :
    c.source = b ∧ c.places = places ∧ c.points c.count = b.place.target := by
  obtain ⟨-, ⟨arc, -, rfl⟩ | ⟨-, rfl⟩⟩ := eq_of_cut? h <;> exact ⟨rfl, rfl, if_pos rfl⟩

end

variable (hcount : ∀ x : α, Scalar.isFinite x = true → ¬x < 1 → Scalar.toNat x ≠ 0)

include hcount in
theorem pieceCount_ne_zero (arc : Arc α) (maxStep : α) : arc.pieceCount maxStep ≠ 0 := by
  have hpieces : ∀ n : α, (if !Scalar.isFinite n || n < 1 then 1
      else if Scalar.ofNat Arc.maxPieces < n then Arc.maxPieces else Scalar.toNat n) ≠ 0 := by
    intro n
    split
    · exact Nat.one_ne_zero
    · rename_i h
      simp only [Bool.or_eq_true, Bool.not_eq_true', decide_eq_true_eq, not_or, Bool.not_eq_false] at h
      split
      · decide
      · exact hcount n h.1 h.2
  rw [Arc.pieceCount]
  split
  · exact hpieces _
  · exact Nat.one_ne_zero

include hcount in
theorem count_ne_zero_of_cut? {b : Block α} {maxStep : α} {places : ℕ} {c : Cut α}
    (h : b.cut? maxStep places = some c) : c.count ≠ 0 := by
  obtain ⟨-, ⟨arc, -, rfl⟩ | ⟨-, rfl⟩⟩ := eq_of_cut? h
  · exact pieceCount_ne_zero hcount arc maxStep
  · exact (Nat.lt_of_lt_of_le Nat.one_pos (Nat.le_max_left 1 _)).ne'

include hcount in
/-- A line that is not cut stays, any other is cut into pieces up to its end. -/
theorem linearized_cases {b : Block α}
    (harc : b.place.arc.isSome = (b.motion.isArc && (b.i.isSome || b.j.isSome))) (maxStep : α) (places : ℕ) :
    (b.isEditable && b.isCut maxStep) = false ∧ b.linearized maxStep (some maxStep) places = [b] ∨
      (b.isEditable && b.isCut maxStep) = true ∧ ∃ c : Cut α, c.source = b ∧ c.count ≠ 0 ∧
        c.points c.count = b.place.target ∧ c.places = places ∧
        b.linearized maxStep (some maxStep) places = c.pieces := by
  rw [← isSome_cut? harc maxStep places, linearized_eq_cut?]
  cases hcut : b.cut? maxStep places with
  | none => exact .inl ⟨rfl, rfl⟩
  | some c =>
      obtain ⟨hsource, hplaces, hfinish⟩ := source_of_cut? hcut
      exact .inr ⟨rfl, c, hsource, count_ne_zero_of_cut? hcount hcut, hfinish, hplaces, rfl⟩

end Block

/-- The first piece of a move is written with the extra words, the others without any. -/
theorem Cut.keptIn_pieces (c : Cut α) (hcount : c.count ≠ 0) (format : NumberFormat) (e : Emitted α) :
    ∃ first rest, (pass (Block.write format) e c.pieces).2 = first :: rest ∧
      c.source.extra.KeptIn α format first ∧ ∀ line ∈ rest, ({} : ExtraWords).KeptIn α format line := by
  obtain ⟨n, hn⟩ := Nat.exists_eq_succ_of_ne_zero hcount
  have hpieces : c.pieces = c.piece 1 :: (List.range n).map fun k => c.piece (k + 2) := by
    rw [pieces, hn, List.range_succ_eq_map, List.map_cons, List.map_map]
    rfl
  rw [hpieces, pass_cons]
  refine ⟨_, _, rfl, (c.piece 1).keptIn_write rfl format e, ?_⟩
  intro line hline
  obtain ⟨e, b, hb, rfl⟩ := exists_of_mem_pass hline
  obtain ⟨k, -, rfl⟩ := List.mem_map.mp hb
  exact (c.piece (k + 2)).keptIn_write rfl format e

/-- Cutting replaces arcs and long moves and copies all other lines. -/
theorem Block.linearizes_pass (hcount : ∀ x : α, Scalar.isFinite x = true → ¬x < 1 → Scalar.toNat x ≠ 0)
    {b : Block α} (hm : b.modified = false)
    (harc : b.place.arc.isSome = (b.motion.isArc && (b.i.isSome || b.j.isSome))) (format : NumberFormat)
    (maxStep : α) (e : Emitted α) :
    b.Linearizes format maxStep
      (pass (Block.write format) e (b.linearized maxStep (some maxStep) format.decimalPlaces)).2 := by
  rcases linearized_cases hcount harc maxStep format.decimalPlaces with ⟨hidle, hb⟩ |
    ⟨hcut, c, rfl, hc, -, -, hb⟩
  · rw [hb, pass_cons, pass_nil, write_of_unmodified hm]
    exact .copied hidle
  · obtain ⟨first, rest, hlines, hfirst, hrest⟩ := c.keptIn_pieces hc format e
    rw [hb, hlines]
    exact .cut hcut hfirst hrest

/-! ### Lines without line feeds -/

/-- Neither the text nor the extra words of the block have a line feed. -/
structure Block.Unbroken (b : Block α) : Prop where
  text : '\n' ∉ b.text.toList
  extra : ∀ text ∈ b.extra.texts, '\n' ∉ text.toList

/-- The extra words of a line have no line feed. -/
theorem Block.FromText.not_mem_extra {b : Block α} (h : b.FromText) (hline : '\n' ∉ b.text.toList) :
    ∀ text ∈ b.extra.texts, '\n' ∉ text.toList := by
  intro text htext
  have hextra : b.extra = (Block.read 0 b.text (Modal.initial : Modal α)).2.extra := by
    rw [h.extra, Block.read_snd, lineWords]
  rw [hextra] at htext
  rcases Block.isLine_or_mem_comment? 0 b.text _ text htext with hisLine | hcomment
  · exact fun hmem => (hisLine _ hmem).1 rfl
  · rw [Content.comment?] at hcomment
    split at hcomment
    · simp at hcomment
    · obtain rfl : " ".intercalate ((Content.ofLine b.text).comments.map String.ofList) = text := by
        simpa using hcomment
      intro hmem
      rw [String.toList_intercalate, List.map_map] at hmem
      rcases mem_intercalate hmem with hblank | ⟨chunk, hchunk, hmem⟩
      · simp at hblank
      · obtain ⟨comment, hcomment, rfl⟩ := List.mem_map.mp hchunk
        exact hline (Content.subset_of_mem_comments hcomment (by simpa using hmem))

theorem ExtraWords.KeptIn.not_mem {extra : ExtraWords} {format : NumberFormat} {line : String}
    (h : extra.KeptIn α format line) (hextra : ∀ text ∈ extra.texts, '\n' ∉ text.toList) :
    '\n' ∉ line.toList := by
  obtain ⟨motion, numbers, hnumbers, rfl⟩ := h
  have hmotion : ∀ code : ℕ, '\n' ∉ (s!"G{code}").toList := fun code hmem =>
    (Block.isLine_motionText code _ hmem).1 rfl
  have hnumber : ∀ n ∈ numbers, '\n' ∉ (n.1.toString ++ format.render n.2).toList := by
    intro n hn hmem
    have hletter := (hnumbers n hn).ne.1
    have hline : Text.IsLine (n.1.toString ++ format.render n.2) :=
      (isLine_of_isAlpha (by simp [isAlpha_eq, hletter])).append (format.isLine_render n.2)
    exact (hline _ hmem).1 rfl
  intro hmem
  rw [String.toList_intercalate] at hmem
  rcases mem_intercalate hmem with hblank | ⟨chunk, hchunk, hmem⟩
  · simp at hblank
  · obtain ⟨text, htext, rfl⟩ := List.mem_map.mp hchunk
    have hextra' : text ∈ extra.texts → '\n' ∉ text.toList := hextra text
    simp only [ExtraWords.texts, List.mem_append] at hextra' htext
    rcases htext with ((((htext | htext) | htext) | htext) | htext) | htext
    · exact hextra' (by simp [htext]) hmem
    · obtain ⟨code, -, rfl⟩ : ∃ code, motion.code? = some code ∧ s!"G{code}" = text := by simpa using htext
      exact hmotion code hmem
    · exact hextra' (by simp [htext]) hmem
    · obtain ⟨n, hn, rfl⟩ := List.mem_map.mp htext
      exact hnumber n hn hmem
    · exact hextra' (by simp [htext]) hmem
    · exact hextra' (by simp [htext]) hmem

namespace Block

theorem FromText.unbroken {b : Block α} (h : b.FromText) (hline : '\n' ∉ b.text.toList) : b.Unbroken :=
  ⟨hline, h.not_mem_extra hline⟩

variable {b b' : Block α}

omit [Scalar α] in
theorem Unbroken.edit (h : b.Unbroken) (hedit : b.EditOf b') : b'.Unbroken :=
  ⟨hedit.text ▸ h.text, hedit.extra ▸ h.extra⟩

theorem Unbroken.not_mem_write (h : b.Unbroken) (format : NumberFormat) (e : Emitted α) :
    '\n' ∉ (b.write format e).2.toList := by
  cases hm : b.modified with
  | false =>
      rw [write_of_unmodified hm]
      exact h.text
  | true => exact (keptIn_write hm format e).not_mem h.extra

theorem Unbroken.piece {c : Cut α} (h : c.source.Unbroken) (k : ℕ) : (c.piece k).Unbroken := by
  refine ⟨h.text, ?_⟩
  simp only [Cut.piece]
  split
  · exact h.extra
  · simp [ExtraWords.texts]

theorem Unbroken.linearized (h : b.Unbroken) (arcStep : α) (lineStep : Option α) (places : ℕ) :
    ∀ b' ∈ b.linearized arcStep lineStep places, b'.Unbroken :=
  forall_mem_linearized h (fun _ hc k => (hc ▸ h).piece k) arcStep lineStep places

end Block

theorem Program.unbroken_change {p : Program α} (hp : ∀ b ∈ p.lines, b.Unbroken) {settings : Settings α}
    (hcomment : '\n' ∉ settings.markers.offsetMoveComment.toList) (edit : Edit α) :
    ∀ b ∈ (edit.change p settings).lines, b.Unbroken := by
  by_cases hoffset : ∀ anchor extra, edit ≠ .offset anchor extra
  · exact forall_mem_of_forall₂ (fun _ _ hedit hb => hb.edit hedit) (editsLines_change hoffset p settings) hp
  · simp only [not_forall, not_not] at hoffset
    obtain ⟨anchor, extra, rfl⟩ := hoffset
    have hmoved : ∀ b ∈ (p.withOffsetMove settings.markers.offsetMoveComment).lines, b.Unbroken := by
      refine (p.withMove_lines _).forall_mem ?_ (fun b _ hb => ⟨hb.text, hb.extra⟩) hp
      intro slot feed spindle
      have htext : '\n' ∉ ((if slot.selectsRelative then "G91 G0 X0 Y0 " else "G0 X0 Y0 ") ++
          settings.markers.offsetMoveComment).toList := by
        rw [String.toList_append, List.mem_append, not_or]
        refine ⟨?_, hcomment⟩
        split <;> decide
      exact ((Block.fromText_read slot.line _ _).unbroken (by simpa [Block.read_snd, Block.inert] using htext)).edit
        (Block.editOf_modified _)
    exact forall_mem_of_forall₂ (fun _ _ hedit hb => hb.edit hedit) (editsLines_shiftLines _ _) hmoved

/-! ### The whole text -/

/-- A listing of unbroken blocks has one line for each of them. -/
theorem Block.Unbroken.not_mem_listing {format : NumberFormat} {bs : List (Block α)}
    (h : ∀ b ∈ bs, b.Unbroken) (e : Emitted α) : ∀ line ∈ (pass (Block.write format) e bs).2, '\n' ∉ line.toList := by
  intro line hline
  obtain ⟨e, b, hb, rfl⟩ := exists_of_mem_pass hline
  exact (h b hb).not_mem_write format e

namespace Program

theorem unbroken_executed {lines : List String} (h : ∀ line ∈ lines, '\n' ∉ line.toList)
    (settings : Settings α) (machine : Machine α) :
    ∀ b ∈ (ofLines lines settings machine).executed, b.Unbroken := by
  intro b hb
  obtain ⟨hfrom, -, htext, -⟩ := line_or_copy_of_mem_executed hb
  refine hfrom.unbroken ?_
  rw [htext, List.getD_eq_getElem?_getD]
  cases hline : lines[b.number]? with
  | none => simp
  | some line => exact h line (List.mem_of_getElem? hline)

theorem unbroken_ofLines {lines : List String} (h : ∀ line ∈ lines, '\n' ∉ line.toList)
    (settings : Settings α) (machine : Machine α) : ∀ b ∈ (ofLines lines settings machine).lines, b.Unbroken :=
  fun b hb => unbroken_executed h settings machine b (lines_subset_executed _ hb)

/-- An edit adds no line to a program without lines. -/
theorem lines_change_of_nil {p : Program α} (hp : p.lines = []) (edit : Edit α) (settings : Settings α) :
    (edit.change p settings).lines = [] := by
  by_cases hoffset : ∀ anchor extra, edit ≠ .offset anchor extra
  · have hedits := editsLines_change hoffset p settings
    rw [EditsLines, hp] at hedits
    exact List.forall₂_nil_left_iff.mp hedits
  · simp only [not_forall, not_not] at hoffset
    obtain ⟨anchor, extra, rfl⟩ := hoffset
    have hmove := p.withMove_lines settings.markers.offsetMoveComment
    have hedits := editsLines_shiftLines (p.withOffsetMove settings.markers.offsetMoveComment)
      (anchor.point p.extent + extra)
    rw [EditsLines] at hedits
    rw [hp] at hmove
    generalize (p.withOffsetMove settings.markers.offsetMoveComment).lines = moved at hmove hedits
    generalize hnil : ([] : List (Block α)) = bs at hmove
    cases hmove with
    | unchanged =>
        subst hnil
        exact List.forall₂_nil_left_iff.mp hedits
    | afterRetract | atCoordinates => simp at hnil

/-- What is not to be changed comes through unchanged. An edit gives one line for each line of the
program, and possibly the move of an offset; cutting gives a group of lines for each line. Lines that
may not be edited, and lines without a word that is rewritten, are copied; all others keep their extra
words. That a finite number from one on has a whole part holds of exact numbers and of floats alike
(`toNat_ne_zero`, `Binary64.toNat_ne_zero`). -/
theorem passesThrough (text : String) (settings : Settings α) (machine : Machine α)
    (hcomment : '\n' ∉ settings.markers.offsetMoveComment.toList)
    (hcount : ∀ x : α, Scalar.isFinite x = true → ¬x < 1 → Scalar.toNat x ≠ 0) :
    let p := read text settings machine
    let relative := ∃ line ∈ Text.lines text, selectsRelative α line
    p.lines.map (·.text) = Text.lines text ∧
      (∀ edit : Edit α, (∀ surface, edit ≠ .follow surface) →
        ∃ lines, (edit.apply p settings machine).2 = Text.ofLines lines ∧
          (∀ line ∈ lines, '\n' ∉ line.toList) ∧
          edit.PassesThrough settings.format settings.markers.offsetMoveComment relative p.lines lines) ∧
      ∀ maxStep : α, ∃ groups : List (List String),
        linearListing settings.format maxStep p.lines = Text.ofLines groups.flatten ∧
          (∀ line ∈ groups.flatten, '\n' ∉ line.toList) ∧
          List.Forall₂ (Block.Linearizes settings.format maxStep) p.lines groups := by
  intro p relative
  have hmodified : ∀ b ∈ p.lines, b.modified = false :=
    modified_place (modified_asRead (Text.lines text) settings) machine
  have hunbroken : ∀ b ∈ p.lines, b.Unbroken :=
    unbroken_ofLines (fun _ => Text.not_mem_of_mem_lines) settings machine
  have harc : ∀ b ∈ p.lines, b.place.arc.isSome = (b.motion.isArc && (b.i.isSome || b.j.isSome)) := fun b hb =>
    isSome_arc_of_mem_executed (lines_subset_executed p hb)
  refine ⟨texts_ofLines _ settings machine, ?_, ?_⟩
  · intro edit hfollow
    exact ⟨_, Edit.apply_snd hfollow (fun hnil => lines_change_of_nil hnil edit settings) machine,
      Block.Unbroken.not_mem_listing (unbroken_change hunbroken hcomment edit) _,
      Edit.passesThrough_change hfollow hmodified exists_selectsRelative settings⟩
  · intro maxStep
    obtain ⟨groups, hgroups, hlinearizes⟩ := exists_groups_of_pass (fun e b hb =>
      Block.linearizes_pass hcount (hmodified b hb) (harc b hb) settings.format maxStep e)
      (Emitted.atStart : Emitted α)
    refine ⟨groups, congrArg Text.ofLines hgroups, ?_, hlinearizes⟩
    rw [← hgroups]
    refine Block.Unbroken.not_mem_listing ?_ _
    intro b hb
    obtain ⟨b₀, hb₀, hb⟩ := List.mem_flatMap.mp hb
    exact (hunbroken b₀ hb₀).linearized _ _ _ b hb

/-- An offset of a program in relative distances gives one line more. -/
theorem passesThrough_offset :
    let _ := PlaneFunctions.straight
    let settings : Settings ℚ := .default
    let p := read "N1 G91 (start)\nG1 X1 Y1\nM30\n" settings .default
    let edit : Edit ℚ := .offset .center ⟨1, 2⟩
    let relative := ∃ line ∈ Text.lines "N1 G91 (start)\nG1 X1 Y1\nM30\n", selectsRelative ℚ line
    ('\n' ∉ settings.markers.offsetMoveComment.toList ∧
      ∀ x : ℚ, Scalar.isFinite x = true → ¬x < Scalar.ofNat 1 → Scalar.toNat x ≠ 0) ∧
    p.lines.length = 3 ∧ (Text.lines (edit.apply p settings .default).2).length = 4 ∧
    ∃ lines, (edit.apply p settings .default).2 = Text.ofLines lines ∧
      edit.PassesThrough settings.format "(offset move)" relative p.lines lines := by
  intro _ settings p edit relative
  have hcomment : '\n' ∉ settings.markers.offsetMoveComment.toList := by decide
  have hcount : ∀ x : ℚ, Scalar.isFinite x = true → ¬x < Scalar.ofNat 1 → Scalar.toNat x ≠ 0 := fun x _ hx =>
    toNat_ne_zero hx
  obtain ⟨-, hedits, -⟩ := passesThrough _ settings .default hcomment hcount
  obtain ⟨lines, htext, -, hpasses⟩ := hedits edit (by simp [edit])
  exact ⟨⟨hcomment, hcount⟩, by decide +kernel, by decide +kernel, lines, htext, hpasses⟩

end Program

end PartProgram
