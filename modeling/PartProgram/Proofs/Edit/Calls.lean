import PartProgram.Proofs.Edit.Rereading
import PartProgram.Proofs.Edit.Steps

/-! # Edits of programs with calls

The text that an edit gives runs the steps of the program. It has their modes if and only if every step
keeps its modes.
-/

namespace PartProgram

open Word (latest)

/-! ### Listings of changed programs -/

section

variable {α : Type} [Field α] [LinearOrder α] [IsStrictOrderedRing α] [FloorRing α] [PlaneFunctions α]

variable {flips : Prop} {t e : Block α}

/-- A line that has been read and changed, with speeds on the grid. -/
structure Block.Reedits (flips : Prop) (places : ℕ) (t e : Block α) : Prop where
  read : ∃ n m, t.asRead = (Block.read n t.text m).2
  unmodified : t.modified = false
  changes : t.ChangesTo flips e
  feed : PartProgram.OnGrid places t.feed
  spindle : PartProgram.OnGrid places t.spindle

omit [IsStrictOrderedRing α] in
/-- A line without a motion has no motion word. -/
theorem Block.selectsMotion_of_unset {n : ℕ} {m : Modal α} (h : t.asRead = (Block.read n t.text m).2)
    (hunset : t.motion = .unset) : selectsMotion α t.text = false := by
  have hmotion : t.motion = latest (Word.motion? α) m.motion (wordsOf t.text) :=
    (congrArg Block.motion h).trans (Block.runs_read n t.text m).motion
  rw [← Bool.not_eq_true]
  intro hselects
  rw [hunset, latest_motion?_eq m.motion .rapid, if_pos hselects] at hmotion
  rcases Word.latest_eq_or (f := Word.motion? α) (v := .rapid) (wordsOf t.text) with hrapid | ⟨w, -, hw⟩
  · simp [hrapid] at hmotion
  · rw [← hmotion] at hw
    exact Word.motion?_ne_unset w hw

/-- A speed is written exactly if it differs from the one before. -/
theorem ite_differs {places : ℕ} (hplaces : places ≤ 5) {last value : α} (hlast : OnGrid places last)
    (hvalue : OnGrid places value) (v : α) :
    (if Emitted.differs (some last) value then value else v) =
      (if last = value then none else some value).getD v := by
  by_cases heq : last = value
  · have hdiffers : ¬Emitted.differs (some last) value = true := by
      rw [differs_iff hplaces hlast hvalue]
      simpa using heq
    rw [if_neg hdiffers, if_pos heq]
    rfl
  · rw [if_pos ((differs_iff hplaces hlast hvalue).mpr heq), if_neg heq]
    rfl

/-- A line of the listing is the line of the text, written with what its block selects. -/
theorem Block.Reedits.rewrites {format : NumberFormat} (h : t.Reedits flips format.decimalPlaces e)
    (hplaces : format.decimalPlaces ≤ 5) {feed spindle : α} (hfeed : PartProgram.OnGrid format.decimalPlaces feed)
    (hspindle : PartProgram.OnGrid format.decimalPlaces spindle) :
    Rewrites t.text (e.reread format ⟨some feed, some spindle⟩) (e.select (feed, spindle)).2 := by
  obtain ⟨n, m, hread⟩ := h.read
  have hefrom := (fromText_of_asRead hread).edit h.changes.edit
  have hwords := wordsOf_reread format ⟨some feed, some spindle⟩ hefrom
  have htext := h.changes.edit.text
  have hefeed : PartProgram.OnGrid format.decimalPlaces e.feed := h.changes.edit.feed ▸ h.feed
  have hespindle : PartProgram.OnGrid format.decimalPlaces e.spindle := h.changes.edit.spindle ▸ h.spindle
  refine ⟨?_, ?_, ?_, ?_, ?_, ?_, ?_, ?_⟩
  · rw [codes_reread format _ hefrom, htext]
  · intro absolute
    rw [hwords, ← htext]
    split
    · exact latest_distance?_rewritten format _ absolute
    · rfl
  · intro hnone
    have hm : e.modified = false := by
      simpa [Block.select] using hnone
    rw [hwords, hm, ← htext]
    rfl
  · intro s hs m
    obtain ⟨hm, hmotion, -, -⟩ := of_mem_select hs
    rw [hwords, if_pos hm, latest_motion?_rewritten, hmotion]
  · intro s hs hunset
    obtain ⟨-, hmotion, -, -⟩ := of_mem_select hs
    refine selectsMotion_of_unset hread ?_
    have hlike := h.changes.motion
    rw [← hmotion, hunset] at hlike
    exact hlike.eq_of_not_isArc fun _ => rfl
  · intro s hs v
    obtain ⟨hm, -, hsfeed, -⟩ := of_mem_select hs
    rw [hwords, if_pos hm, latest_feed?_rewritten format _ hefeed, hsfeed]
    exact ite_differs hplaces hfeed hefeed v
  · intro s hs v
    obtain ⟨hm, -, -, hsspindle⟩ := of_mem_select hs
    rw [hwords, if_pos hm, latest_spindle?_rewritten format _ hespindle, hsspindle]
    exact ite_differs hplaces hspindle hespindle v
  · intro s hs n' m'
    have hcoordinates : t.hasCoordinates = true := by
      rcases h.changes.changed (of_mem_select hs).1 with hm | hcoordinates
      · simp [h.unmodified] at hm
      · exact hcoordinates
    have hsame : t.asRead.hasCoordinates = (Block.read n' t.text m').2.hasCoordinates := by
      rw [hread]
      simp [read_snd, hasCoordinates]
    exact hsame ▸ hcoordinates

/-- The lines of a listing are the lines of the text, written with what their blocks select. -/
theorem rewrites_listing {format : NumberFormat} (hplaces : format.decimalPlaces ≤ 5) {ts es : List (Block α)}
    (h : List.Forall₂ (Block.Reedits flips format.decimalPlaces) ts es) {feed spindle : α}
    (hfeed : OnGrid format.decimalPlaces feed) (hspindle : OnGrid format.decimalPlaces spindle) (n : ℕ) :
    Rewrites ((ts.map (·.text)).getD n "")
      (((pass (Block.write format) ⟨some feed, some spindle⟩ es).2.map fun line =>
        String.ofList (Text.dropReturn line.toList)).getD n "")
      ((pass Block.select (feed, spindle) es).2[n]?).join := by
  induction h generalizing feed spindle n with
  | nil => simpa using Rewrites.refl ""
  | @cons t e ts es ht _ ih =>
      have hefeed : OnGrid format.decimalPlaces e.feed := ht.changes.edit.feed ▸ ht.feed
      have hespindle : OnGrid format.decimalPlaces e.spindle := ht.changes.edit.spindle ▸ ht.spindle
      have hwrite := Block.write_fst format hplaces hfeed hspindle hefeed hespindle
      rw [pass_cons, pass_cons, hwrite]
      cases n with
      | zero => exact ht.rewrites hplaces hfeed hspindle
      | succ n => exact ih hefeed hespindle n

end

/-! ### The modes of the edited program -/

section

variable {α : Type} [Scalar α]

/-- The text of an edit is the listing of the changed lines, placed or not. -/
theorem Edit.apply_snd {edit : Edit α} (h : ∀ surface, edit ≠ .follow surface) {p : Program α}
    {settings : Settings α} (hempty : p.lines = [] → (edit.change p settings).lines = [])
    (machine : Machine α) :
    (edit.apply p settings machine).2 = listing settings.format (edit.change p settings).lines := by
  have hplaced : ∀ bs : List (Block α),
      listing settings.format bs = listing settings.format (bs.map Block.unplaced) := by
    intro bs
    rw [listing, listing, pass_map]
    rfl
  by_cases hp : p.isEmpty = true
  · have hlines : p.lines = [] := by simpa [Program.isEmpty, Program.lines] using hp
    rw [edit.apply_of_isEmpty hp, hempty hlines]
    rfl
  · rw [apply_eq h (by simpa using hp), Program.text, hplaced, Program.lines_place, ← hplaced]

variable {flips : Prop} [Decidable flips]

theorem sameModes_asRead {bs bs' : List (Block α)} :
    List.Forall₂ (Block.SameModes flips) (bs.map Block.asRead) (bs'.map Block.asRead) ↔
      List.Forall₂ (Block.SameModes flips) bs bs' := by
  have hsame : ∀ b b' : Block α, b.asRead.SameModes flips b'.asRead ↔ b.SameModes flips b' := fun _ _ =>
    ⟨fun h => ⟨h.feed, h.spindle, h.absolute, h.motion⟩,
      fun h => ⟨h.feed, h.spindle, h.absolute, h.motion⟩⟩
  rw [List.forall₂_map_left_iff, List.forall₂_map_right_iff]
  simp only [hsame]

theorem keepsModes_asRead {selected : ℕ → Option (Selection α)} {c : Running α} {bs : List (Block α)} :
    KeepsModes flips selected c (bs.map Block.asRead) ↔ KeepsModes flips selected c bs := by
  induction bs generalizing c with
  | nil => exact Iff.rfl
  | cons b bs ih =>
      have hkeeps : b.asRead.Keeps flips (selected b.number) c ↔ b.Keeps flips (selected b.number) c :=
        ⟨fun h => ⟨h.feed, h.spindle, h.motion, h.arc⟩, fun h => ⟨h.feed, h.spindle, h.motion, h.arc⟩⟩
      exact and_congr hkeeps ih

end

section

variable {α : Type} [Field α] [LinearOrder α] [IsStrictOrderedRing α] [FloorRing α] [PlaneFunctions α]

instance (edit : Edit α) : Decidable edit.Flips :=
  match edit with
  | .mirror _ => isTrue trivial
  | .turn _ | .stretch _ _ | .offset _ _ | .dropZ | .follow _ => isFalse id

/-- The listing of a changed program has its lines rewritten, one by one. -/
theorem Program.rewrites_apply (text : String) (settings : Settings α) (machine : Machine α) {edit : Edit α}
    (hoffset : ∀ anchor extra, edit ≠ .offset anchor extra) (hfollow : ∀ surface, edit ≠ .follow surface)
    (hplaces : settings.format.decimalPlaces ≤ 5)
    (heditable : ∀ b ∈ (read text settings machine).lines, b.isEditable = true)
    (hgrid : ∀ b ∈ (read text settings machine).lines,
      OnGrid settings.format.decimalPlaces b.feed ∧ OnGrid settings.format.decimalPlaces b.spindle) :
    let p := read text settings machine
    let lines' := Text.lines (edit.apply p settings machine).2
    lines'.length = (Text.lines text).length ∧
      ∀ n, Rewrites ((Text.lines text).getD n "") (lines'.getD n "") ((edit.change p settings).selected n) := by
  intro p lines'
  have hchanges := Edit.changes hoffset heditable settings
  have htexts : p.lines.map (·.text) = Text.lines text := texts_ofLines (Text.lines text) settings machine
  have hreedits : List.Forall₂ (Block.Reedits edit.Flips settings.format.decimalPlaces) p.lines
      (edit.change p settings).lines := by
    have hread : ∀ b ∈ p.lines, (∃ n m, b.asRead = (Block.read n b.text m).2) ∧ b.modified = false ∧
        OnGrid settings.format.decimalPlaces b.feed ∧ OnGrid settings.format.decimalPlaces b.spindle :=
      fun b hb => ⟨exists_read_of_mem_lines hb,
        modified_place (modified_asRead (Text.lines text) settings) machine b hb, hgrid b hb⟩
    refine ((List.forall₂_and_left p.lines _).mpr ⟨hread, hchanges⟩).imp ?_
    rintro t e ⟨⟨hread, hunmodified, hfeed, hspindle⟩, hchange⟩
    exact ⟨hread, hunmodified, hchange, hfeed, hspindle⟩
  have hlisted : ∀ line ∈ (pass (Block.write settings.format) Emitted.atStart (edit.change p settings).lines).2,
      '\n' ∉ line.toList := by
    have hsingle : ∀ b ∈ p.lines, b.FromText ∧ '\n' ∉ b.text.toList := fun b hb =>
      ⟨fromText_ofLines _ settings machine b hb,
        Text.not_mem_of_mem_lines (htexts ▸ List.mem_map_of_mem hb)⟩
    have hedited := forall_mem_of_forall₂ (Q := fun b => b.FromText ∧ '\n' ∉ b.text.toList)
      (fun _ _ h hb => ⟨hb.1.edit h.edit, h.edit.text ▸ hb.2⟩) hchanges hsingle
    intro line hline
    obtain ⟨e, b, hb, rfl⟩ := exists_of_mem_pass hline
    exact (hedited b hb).1.not_mem_write settings.format e (hedited b hb).2
  have hempty : p.lines = [] → (edit.change p settings).lines = [] := by
    intro hnil
    rw [hnil] at hchanges
    exact List.forall₂_nil_left_iff.mp hchanges
  have hlines : lines' = (pass (Block.write settings.format) Emitted.atStart
      (edit.change p settings).lines).2.map fun line => String.ofList (Text.dropReturn line.toList) := by
    simp only [lines', Edit.apply_snd hfollow hempty machine]
    exact Text.lines_ofLines hlisted
  refine ⟨?_, ?_⟩
  · rw [hlines, List.length_map, length_pass, ← hchanges.length_eq, ← htexts, List.length_map]
  · intro n
    rw [hlines, emitted_atStart, ← htexts]
    exact rewrites_listing hplaces hreedits onGrid_zero onGrid_zero n

omit [IsStrictOrderedRing α] in
/-- Rewritten lines run the same steps in the same distance modes, and in the same speeds and motions
exactly if the steps keep their modes. -/
theorem Program.executed_of_rewrites {lines lines' : List String} {selected : ℕ → Option (Selection α)}
    (hlength : lines'.length = lines.length)
    (h : ∀ n, Rewrites (lines.getD n "") (lines'.getD n "") (selected n)) (settings : Settings α)
    (machine : Machine α) (flips : Prop) [Decidable flips] :
    let p := ofLines lines settings machine
    let r := ofLines lines' settings machine
    r.executed.map (fun b => (b.inlined, b.number, b.absolute)) =
        p.executed.map (fun b => (b.inlined, b.number, b.absolute)) ∧
      (List.Forall₂ (Block.SameModes flips) p.executed r.executed ↔
        KeepsModes flips selected ⟨0, 0, false⟩ p.executed) := by
  intro p r
  obtain ⟨hread, hsteps⟩ := executed_ofLines lines settings machine
  obtain ⟨hread', hsteps'⟩ := executed_ofLines lines' settings machine
  have hcodes : lines'.map (LineCodes.ofLine α) = lines.map (LineCodes.ofLine α) := by
    apply List.ext_getElem (by simp [hlength])
    intro n hn' hn
    simp only [List.length_map] at hn hn'
    simpa [hn, hn'] using (h n).codes
  have horder := (Source.sameCodes_ofLines hcodes settings.calls settings.markers).order_eq
  rw [horder] at hread' hsteps'
  have hrewrites : ∀ n, Rewrites
      ((Source.ofLines α lines settings.calls settings.markers).lines.getD n "")
      ((Source.ofLines α lines' settings.calls settings.markers).lines.getD n "") (selected n) := by
    intro n
    simpa [Source.ofLines] using h n
  refine ⟨?_, ?_⟩
  · have hnumbers : r.executed.map (fun b => (b.inlined, b.number)) =
        p.executed.map (fun b => (b.inlined, b.number)) := by
      exact hsteps'.trans hsteps.symm
    have habsolute : r.executed.map (·.absolute) = p.executed.map (·.absolute) := by
      have habsolute := absolute_pass hrewrites (rfl : (Modal.initial : Modal α).absolute = Modal.initial.absolute)
        (((Source.ofLines α lines settings.calls settings.markers).order α).map Prod.snd)
      rw [← hread, ← hread', List.map_map, List.map_map] at habsolute
      exact habsolute
    have hsplit : ∀ bs : List (Block α), bs.map (fun b => (b.inlined, b.number, b.absolute)) =
        ((bs.map fun b => (b.inlined, b.number)).zip (bs.map (·.absolute))).map fun x =>
          (x.1.1, x.1.2, x.2) := by
      intro bs
      rw [List.zip_map', List.map_map]
      rfl
    rw [hsplit, hsplit, hnumbers, habsolute]
  · have hzero : (Modal.initial : Modal α).feed = 0 := Nat.cast_zero
    have hstart : Running.Tracks flips ⟨0, 0, false⟩ (Modal.initial : Modal α) Modal.initial :=
      ⟨rfl, rfl, ⟨hzero, hzero⟩, ⟨hzero, hzero⟩⟩
    rw [← sameModes_asRead, ← keepsModes_asRead, hread, hread']
    exact sameModes_pass hrewrites hstart _

/-- The text of an edit runs the same steps as the program that it has been made from, in the same
distance modes. The steps have the same speeds and motions exactly if every step on a changed line
keeps its modes. -/
theorem Program.sameModes_iff (text : String) (settings : Settings α) (machine : Machine α) (edit : Edit α)
    (hoffset : ∀ anchor extra, edit ≠ .offset anchor extra) (hfollow : ∀ surface, edit ≠ .follow surface)
    (hplaces : settings.format.decimalPlaces ≤ 5) :
    let p := read text settings machine
    let r := read (edit.apply p settings machine).2 settings machine
    (∀ b ∈ p.lines, b.isEditable = true) →
      (∀ b ∈ p.lines, OnGrid settings.format.decimalPlaces b.feed ∧
        OnGrid settings.format.decimalPlaces b.spindle) →
      r.executed.map (fun b => (b.inlined, b.number, b.absolute)) =
          p.executed.map (fun b => (b.inlined, b.number, b.absolute)) ∧
        (List.Forall₂ (Block.SameModes edit.Flips) p.executed r.executed ↔
          KeepsModes edit.Flips (edit.change p settings).selected ⟨0, 0, false⟩ p.executed) := by
  intro p r heditable hgrid
  obtain ⟨hlength, hrewrites⟩ :=
    rewrites_apply text settings machine hoffset hfollow hplaces heditable hgrid
  exact executed_of_rewrites hlength hrewrites settings machine edit.Flips

/-- A feed that the body has changed is left out after the call. -/
theorem Program.not_sameModes_after_call :
    let _ := PlaneFunctions.straight
    let settings : Settings ℚ := .default
    let p := read "F100\nM98 P1\nG1 X10 F100\nM30\nO1\nF200\nM99\n" settings .default
    let edit : Edit ℚ := .stretch 100 100
    let r := read (edit.apply p settings .default).2 settings .default
    ((∀ b ∈ p.lines, b.isEditable = true) ∧
      ∀ b ∈ p.lines, OnGrid settings.format.decimalPlaces b.feed ∧
        OnGrid settings.format.decimalPlaces b.spindle) ∧
    ¬List.Forall₂ (Block.SameModes edit.Flips) p.executed r.executed := by
  intro _ settings p edit r
  have heditable : ∀ b ∈ p.lines, b.isEditable = true := by decide +kernel
  have hgrid : ∀ b ∈ p.lines, OnGrid settings.format.decimalPlaces b.feed ∧
      OnGrid settings.format.decimalPlaces b.spindle := by decide +kernel
  have hkeeps : ¬KeepsModes edit.Flips (edit.change p settings).selected ⟨0, 0, false⟩ p.executed := by
    decide +kernel
  obtain ⟨-, hiff⟩ :=
    sameModes_iff _ settings .default edit (by simp [edit]) (by simp [edit]) (by decide) heditable hgrid
  exact ⟨⟨heditable, hgrid⟩, fun hsame => hkeeps (hiff.mp hsame)⟩

end

end PartProgram
