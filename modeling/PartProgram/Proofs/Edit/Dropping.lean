import PartProgram.Proofs.Edit.Calls
import PartProgram.Proofs.Edit.PassThrough
import PartProgram.Proofs.Edit.RoundTrip
import PartProgram.Proofs.Session

/-! # Dropping Z twice

Lines that are written without Z are read without it, and the other lines are copied. A copied line is read as it
was, and where a section of the program was hidden it still is. So the second time there is nothing to drop. What
reading takes off a copied line is a carriage return at its end.
-/

namespace PartProgram

open Word (latest)

/-! ### Hidden sections -/

namespace Markers

/-- No marker of hidden sections or of the footer holds a carriage return. -/
structure WithoutReturns (markers : Markers) : Prop where
  hideStart : '\r' ∉ Text.upper markers.hideStart.toList
  hideStop : '\r' ∉ Text.upper markers.hideStop.toList
  setupFooter : '\r' ∉ Text.upper markers.setupFooter.toList

theorem withoutReturns_default : ({} : Markers).WithoutReturns :=
  ⟨by decide +kernel, by decide +kernel, by decide +kernel⟩

/-- A line without the carriage return at its end has the same markers. -/
theorem onLine_dropReturn {marker : String} (h : '\r' ∉ Text.upper marker.toList) (line : String) :
    onLine marker (String.ofList (Text.dropReturn line.toList)) = onLine marker line := by
  rw [Bool.eq_iff_iff]
  refine ⟨onLine_of_dropReturn, fun hmark => ?_⟩
  rw [onLine, Text.occursIn_iff, String.toList_ofList]
  rw [onLine, Text.occursIn_iff] at hmark
  rw [Text.dropReturn]
  split
  · rename_i hlast
    have hline : line.toList = line.toList.dropLast ++ ['\r'] := (List.dropLast_append_getLast? '\r' hlast).symm
    have hreturn : Text.upper ['\r'] = ['\r'] := by decide +kernel
    rw [hline, Text.upper_append, hreturn] at hmark
    by_cases hnil : Text.upper marker.toList = []
    · exact hnil ▸ List.nil_infix
    · exact (infix_or_infix_of_not_mem h hmark).resolve_right (by simpa using hnil)
  · exact hmark

theorem WithoutReturns.hides_dropReturn {markers : Markers} (h : markers.WithoutReturns) (hidden : Bool)
    (line : String) :
    markers.hides hidden (String.ofList (Text.dropReturn line.toList)) = markers.hides hidden line := by
  rw [hides, hides, onLine_dropReturn h.hideStart, onLine_dropReturn h.hideStop]

theorem hides_mono (markers : Markers) {hidden hidden' : Bool} (h : hidden = true → hidden' = true) {line : String}
    (hhides : markers.hides hidden line = true) : markers.hides hidden' line = true := by
  rw [hides] at hhides ⊢
  split
  · rfl
  · rename_i hstart
    rw [if_neg hstart] at hhides
    split
    · rename_i hstop
      simp [hstop] at hhides
    · rename_i hstop
      exact h (by simpa [hstop] using hhides)

/-- Which lines are hidden, given whether the line before them is. -/
def hiddenLines (markers : Markers) (hidden : Bool) (lines : List String) : List Bool :=
  (pass (fun hidden line => (markers.hides hidden line, markers.hides hidden line)) hidden lines).2

theorem hiddenLines_cons (markers : Markers) (hidden : Bool) (line : String) (lines : List String) :
    markers.hiddenLines hidden (line :: lines) =
      markers.hides hidden line :: markers.hiddenLines (markers.hides hidden line) lines := by
  rw [hiddenLines, pass_cons]
  rfl

/-- Copied lines that were hidden are hidden again, whatever has become of the lines that were not. -/
theorem WithoutReturns.hiddenLines_of_copied {markers : Markers} (hmarkers : markers.WithoutReturns) {α : Type}
    {bs : List (Block α)} {lines : List String}
    (h : List.Forall₂ (fun b line => b.hidden = true → line = String.ofList (Text.dropReturn b.text.toList)) bs lines)
    {hidden hidden' : Bool} (hstart : hidden = true → hidden' = true)
    (hbs : bs.map (·.hidden) = markers.hiddenLines hidden (bs.map (·.text))) :
    List.Forall₂ (fun b hides => b.hidden = true → hides = true) bs (markers.hiddenLines hidden' lines) := by
  induction h generalizing hidden hidden' with
  | nil => exact .nil
  | @cons b line bs lines hb _ ih =>
      rw [List.map_cons, List.map_cons, hiddenLines_cons] at hbs
      obtain ⟨hfirst, hrest⟩ := List.cons.inj hbs
      have hline : b.hidden = true → markers.hides hidden' line = true := by
        intro hhidden
        rw [hb hhidden, hmarkers.hides_dropReturn]
        exact markers.hides_mono hstart (hfirst ▸ hhidden)
      rw [hiddenLines_cons]
      exact .cons hline (ih (fun hhides => hline (hfirst.trans hhides)) hrest)

end Markers

variable {α : Type} [Scalar α]

namespace Program

section

variable (lines : List String) (settings : Settings α) (machine : Machine α)

/-- Hidden sections are told by the texts of the lines. -/
theorem hidden_ofLines : (ofLines lines settings machine).lines.map (·.hidden) =
    settings.markers.hiddenLines false lines := by
  have hread : ∀ (s : Source) (r : ProgramReader α) (ls : List (ℕ × String)),
      (pass (ProgramReader.readLine s) r ls).2.map (·.line.hidden) =
        s.markers.hiddenLines r.hidden (ls.map Prod.snd) := by
    intro s r ls
    induction ls generalizing r with
    | nil => rfl
    | cons l ls ih =>
        have hline : (r.readLine s l).1.hidden = s.markers.hides r.hidden l.2 ∧
            (r.readLine s l).2.line.hidden = s.markers.hides r.hidden l.2 := by
          simp only [ProgramReader.readLine, and_self]
        rw [pass_cons, List.map_cons, ih, hline.1, hline.2, List.map_cons, Markers.hiddenLines_cons]
  have hplaced := congrArg (List.map Block.hidden) ((asRead lines settings).lines_place machine)
  rw [List.map_map, List.map_map] at hplaced
  refine hplaced.trans ?_
  rw [Program.lines, List.map_map]
  refine (hread _ _ _).trans ?_
  rw [map_snd_mapIdx]
  rfl

variable {lines settings machine}

/-- The footer is told by the text of the line. -/
theorem footer_of_mem_lines {b : Block α} (hb : b ∈ (ofLines lines settings machine).lines) :
    b.footer = Markers.onLine settings.markers.setupFooter b.text := by
  rw [ofLines_eq] at hb
  obtain ⟨b₀, hb₀, heq⟩ := exists_mem_of_mem_lines_place hb
  obtain ⟨e, he, rfl⟩ := List.mem_map.mp hb₀
  obtain ⟨r, l, -, rfl⟩ := exists_of_mem_pass he
  have hread : ∀ source : Source, (r.readLine source l).2.line.footer =
      Markers.onLine source.markers.setupFooter (r.readLine source l).2.line.text := by
    intro source
    simp only [ProgramReader.readLine, Block.read_snd, Block.inert]
  have hfooter := congrArg Block.footer heq
  have htext := congrArg Block.text heq
  change _ = b.footer at hfooter
  change _ = b.text at htext
  rw [← hfooter, ← htext]
  exact hread (Source.ofLines α lines settings.calls settings.markers)

end

end Program

/-! ### Numbers that have been read -/

/-- The numbers on a line are finite, and so are speeds that take effect there. -/
theorem Block.isFinite_read (number : ℕ) (line : String) {m : Modal α} (hfeed : Scalar.isFinite m.feed = true)
    (hspindle : Scalar.isFinite m.spindle = true) : (read number line m).2.IsFinite := by
  have hword : ∀ c : Char, ∀ v ∈ latest (Word.written? α c) none (wordsOf line), Scalar.isFinite v = true := by
    intro c v hv
    rcases Word.latest_eq_or (Word.written? α c) none (wordsOf line) with hnone | ⟨w, -, hw⟩
    · simp [hnone] at hv
    · rw [hv, Word.written?] at hw
      split at hw
      · exact Word.isFinite_of_number? (Option.some_inj.mp hw)
      · simp at hw
  obtain ⟨haxes, hi, hj⟩ := (fromText_read number line m).written (by rw [read_snd]; rfl)
  have htext : (read number line m).2.text = line := by rw [read_snd]; rfl
  rw [htext] at haxes hi hj
  refine ⟨?_, ?_, ?_, isFinite_feed_read number line hfeed, isFinite_spindle_read number line hspindle⟩
  · intro axis
    rw [haxes]
    exact hword axis.letter
  · rw [hi]
    exact hword 'I'
  · rw [hj]
    exact hword 'J'

theorem Program.isFinite_of_mem_executed (hzero : Scalar.isFinite (0 : α) = true) {lines : List String}
    {settings : Settings α} {machine : Machine α} {b : Block α}
    (hb : b ∈ (ofLines lines settings machine).executed) : b.IsFinite := by
  obtain ⟨hread, -⟩ := executed_ofLines lines settings machine
  have hmem := List.mem_map_of_mem (f := Block.asRead) hb
  rw [hread] at hmem
  have hmodes : ∀ (n : ℕ) (line : String) (m : Modal α), (Block.read n line m).1.feed = (Block.read n line m).2.feed ∧
      (Block.read n line m).1.spindle = (Block.read n line m).2.spindle := by
    intro n line m
    rw [Block.read_fst, Block.read_snd]
    exact ⟨rfl, rfl⟩
  have hfinite : b.asRead.IsFinite := by
    refine forall_mem_pass (I := fun m => Scalar.isFinite m.feed = true ∧ Scalar.isFinite m.spindle = true)
      ⟨hzero, hzero⟩ (fun m n _ hm => ?_) _ hmem
    have hread := Block.isFinite_read n ((Source.ofLines α lines settings.calls settings.markers).lines.getD n "") hm.1 hm.2
    obtain ⟨hfeed, hspindle⟩ := hmodes n ((Source.ofLines α lines settings.calls settings.markers).lines.getD n "") m
    rw [Source.readAt, hfeed, hspindle]
    exact ⟨⟨hread.feed, hread.spindle⟩, hread⟩
  exact ⟨hfinite.axes, hfinite.i, hfinite.j, hfinite.feed, hfinite.spindle⟩

/-! ### Lines without Z -/

namespace Block

omit [Scalar α] in
/-- The line has a Z that may be dropped. -/
def dropsZ (b : Block α) : Bool := b.isEditable && b.z.isSome

/-- The line that is written for the block when Z is dropped. -/
structure WrittenWithoutZ (b : Block α) (line : String) : Prop where
  copied : b.dropsZ = false → line = b.text
  z : b.dropsZ = true → (lineWords line : LineWords α).axes.get .z = none
  last : b.dropsZ = true → line.toList.getLast? ≠ some '\r'

variable [Scalar.Printed α] {b : Block α}

theorem writtenWithoutZ (hfrom : b.FromText) (hunmodified : b.modified = false) (hfinite : b.IsFinite)
    (format : NumberFormat) (e : Emitted α) :
    b.WrittenWithoutZ ((if b.isEditable then b.withoutZ else b).write format e).2 := by
  cases hdrops : b.dropsZ with
  | false =>
      have hsame : (if b.isEditable then b.withoutZ else b) = b := by
        rw [dropsZ, Bool.and_eq_false_iff] at hdrops
        rcases hdrops with heditable | hz
        · simp [heditable]
        · simp [withoutZ, hz]
      rw [hsame, write_of_unmodified hunmodified]
      exact ⟨fun _ => rfl, by simp [hdrops], by simp [hdrops]⟩
  | true =>
      have hchanged : (if b.isEditable then b.withoutZ else b) = b.withAxis .z none := by
        obtain ⟨heditable, hz⟩ := Bool.and_eq_true_iff.mp hdrops
        rw [if_pos heditable, withoutZ, if_pos hz]
      have hfrom' : (b.withAxis .z none).FromText := hfrom.edit (b.editOf_withAxis .z none)
      have hfinite' : (b.withAxis .z none).IsFinite := by
        refine ⟨fun axis v hv => ?_, hfinite.i, hfinite.j, hfinite.feed, hfinite.spindle⟩
        by_cases haxis : axis = .z
        · simp [haxis, withAxis] at hv
        · rw [withAxis, AxisWords.get_set_of_ne _ _ haxis] at hv
          exact hfinite.axes axis v hv
      have hwords := hfrom'.wordsOf_write format e rfl hfinite'
      have hz : latest (Word.written? α Axis.z.letter) none ((b.withAxis .z none).rewritten format e) = none := by
        rw [latest_rewritten_of_isPathLetter format e _ (.inl ⟨.z, rfl⟩) fun w hw => by simp [Word.written?, hw],
          filter_numbers_axis]
        simp [withAxis]
      rw [hchanged]
      refine ⟨by simp [hdrops], fun _ => ?_, fun _ => hfrom'.getLast?_write format e rfl hfinite'⟩
      rw [(numbers_lineWords _).1, hwords]
      exact hz

omit [Scalar.Printed α] in
theorem WrittenWithoutZ.getLast?_ne_iff {line : String} (h : b.WrittenWithoutZ line) :
    (b.dropsZ = false → b.text.toList.getLast? ≠ some '\r') ↔ line.toList.getLast? ≠ some '\r' := by
  cases hdrops : b.dropsZ with
  | true => simpa using h.last hdrops
  | false => simp [h.copied hdrops]

omit [Scalar.Printed α] in
/-- A line that is read from the written one has no Z, or it may not be edited. -/
theorem WrittenWithoutZ.z_eq_none {b' : Block α} {line : String} (h : b.WrittenWithoutZ line) (hfrom : b.FromText)
    (hunmodified : b.modified = false) (hfrom' : b'.FromText) (hunmodified' : b'.modified = false)
    (htext : b'.text = String.ofList (Text.dropReturn line.toList)) (hhidden : b.hidden = true → b'.hidden = true)
    (hfooter : line = b.text → b'.footer = b.footer) (heditable : b'.isEditable = true) : b'.z = none := by
  have hwords : (lineWords b'.text : LineWords α) = lineWords line := by
    rw [htext, lineWords, lineWords, wordsOf, wordsOf, Content.ofLine_dropReturn]
  have haxes' := (hfrom'.unmodified hunmodified').1
  rw [Block.z, haxes', hwords]
  cases hdrops : b.dropsZ with
  | true => exact h.z hdrops
  | false =>
      have hcopied := h.copied hdrops
      have hframe : b'.machineFrame = b.machineFrame := by rw [hfrom'.machineFrame, hfrom.machineFrame, hwords, hcopied]
      have hbefore : b.isEditable = true := by
        simp only [isEditable, hframe, hfooter hcopied, Bool.not_eq_true', Bool.or_eq_false_iff] at heditable ⊢
        refine ⟨⟨heditable.1.1, ?_⟩, heditable.2⟩
        exact Bool.eq_false_iff.mpr fun hhides => by simp [hhidden hhides] at heditable
      rw [hcopied, ← (hfrom.unmodified hunmodified).1]
      simpa [dropsZ, hbefore, Block.z] using hdrops

end Block

namespace Program

omit [Scalar α] in
theorem lines_dropZ (p : Program α) :
    p.dropZ.lines = p.lines.map fun b => if b.isEditable then b.withoutZ else b := by
  rw [dropZ, editLines, mapLines, Program.lines, Program.lines, List.map_map, List.map_map]
  rfl

section

variable [Scalar.Printed α] (hzero : Scalar.isFinite (0 : α) = true) (lines : List String) (settings : Settings α)
  (machine : Machine α)

include hzero

/-- The lines of the text without Z. -/
theorem forall₂_dropZ (e : Emitted α) :
    List.Forall₂ Block.WrittenWithoutZ (ofLines lines settings machine).lines
      (pass (Block.write settings.format) e (ofLines lines settings machine).dropZ.lines).2 := by
  set p := ofLines lines settings machine
  have hlines : List.Forall₂ (fun b b' => b.FromText ∧ b.modified = false ∧ b.IsFinite ∧
      b' = if b.isEditable then b.withoutZ else b) p.lines p.dropZ.lines := by
    refine p.forall₂_editLines fun b hb => ⟨fromText_ofLines _ _ _ b hb, ?_, ?_, rfl⟩
    · exact modified_place (modified_asRead lines settings) machine b hb
    · exact isFinite_of_mem_executed hzero (lines_subset_executed _ hb)
  refine forall₂_pass_of_forall₂ ?_ e hlines
  rintro e b b' ⟨hfrom, hunmodified, hfinite, rfl⟩
  exact Block.writtenWithoutZ hfrom hunmodified hfinite settings.format e

end

/-- Without Z words to drop, the program is written as it is. -/
theorem listing_dropZ_of_z_eq_none {lines : List String} {settings : Settings α} {machine : Machine α}
    (h : ∀ b ∈ (ofLines lines settings machine).lines, b.isEditable = true → b.z = none) :
    listing settings.format (ofLines lines settings machine).dropZ.lines = Text.ofLines lines := by
  have hsame : (ofLines lines settings machine).dropZ.lines = (ofLines lines settings machine).lines := by
    rw [lines_dropZ]
    refine (List.map_congr_left fun b hb => ?_).trans (List.map_id _)
    split
    · rename_i heditable
      simp [Block.withoutZ, h b hb heditable]
    · rfl
  rw [hsame]
  exact text_ofLines lines settings machine settings.format

variable {lines : List String} (hlines : ∀ line ∈ lines, '\n' ∉ line.toList) (settings : Settings α)
  (machine : Machine α)

include hlines

/-- The lines of the text without Z hold no line feed. -/
theorem not_mem_dropZ (e : Emitted α) :
    ∀ line ∈ (pass (Block.write settings.format) e (ofLines lines settings machine).dropZ.lines).2,
      '\n' ∉ line.toList := by
  refine Block.Unbroken.not_mem_listing (fun b hb => ?_) e
  have hedits := (ofLines lines settings machine).editsLines_editLines Block.editOf_withoutZ
  exact forall_mem_of_forall₂ (fun _ _ hedit hb => hb.edit hedit) hedits (unbroken_ofLines hlines settings machine) b hb

variable [Scalar.Printed α] (hzero : Scalar.isFinite (0 : α) = true)

include hzero

/-- No line of the text without Z that may be edited has a Z. -/
theorem z_eq_none_of_read_dropZ (hmarkers : settings.markers.WithoutReturns) :
    let text := listing settings.format (ofLines lines settings machine).dropZ.lines
    ∀ b ∈ (read text settings machine).lines, b.isEditable = true → b.z = none := by
  intro text
  set p := ofLines lines settings machine
  set r := read text settings machine with hr
  have hread : List.Forall₂ (fun b line => ∃ written, b.WrittenWithoutZ written ∧
      line = String.ofList (Text.dropReturn written.toList)) p.lines (r.lines.map (·.text)) := by
    have htexts : Text.lines text = _ := Text.lines_ofLines (not_mem_dropZ hlines settings machine Emitted.atStart)
    rw [hr, read, texts_ofLines, htexts, List.forall₂_map_right_iff]
    exact (forall₂_dropZ hzero lines settings machine Emitted.atStart).imp fun b line hb => ⟨line, hb, rfl⟩
  have hhidden : List.Forall₂ (fun b hides => b.hidden = true → hides = true) p.lines (r.lines.map (·.hidden)) := by
    rw [hr, read, hidden_ofLines, ← texts_ofLines (Text.lines text) settings machine]
    refine hmarkers.hiddenLines_of_copied (hread.imp ?_) id (by rw [hidden_ofLines, texts_ofLines])
    rintro b line ⟨written, hb, rfl⟩ hhides
    rw [hb.copied (by simp [Block.dropsZ, Block.isEditable, hhides])]
  have hpairs : List.Forall₂ (fun b b' => (∃ written, b.WrittenWithoutZ written ∧
      b'.text = String.ofList (Text.dropReturn written.toList)) ∧ (b.hidden = true → b'.hidden = true)) p.lines r.lines :=
    List.Forall₂.mp (fun _ _ => And.intro) (List.forall₂_map_right_iff.mp hread) (List.forall₂_map_right_iff.mp hhidden)
  intro b' hb' heditable
  obtain ⟨b, hb, ⟨written, hwritten, htext⟩, hhides⟩ := exists_mem_of_forall₂ hpairs hb'
  have hfooter : b.footer = Markers.onLine settings.markers.setupFooter b.text := footer_of_mem_lines hb
  have hfooter' : b'.footer = Markers.onLine settings.markers.setupFooter b'.text := footer_of_mem_lines hb'
  refine hwritten.z_eq_none (fromText_ofLines lines settings machine b hb)
    (modified_place (modified_asRead lines settings) machine b hb)
    (fromText_ofLines (Text.lines text) settings machine b' hb')
    (modified_place (modified_asRead (Text.lines text) settings) machine b' hb') htext hhides ?_ heditable
  intro hcopied
  rw [hfooter, hfooter', htext, Markers.onLine_dropReturn hmarkers.setupFooter, hcopied]

end Program

namespace Session

/-- The text of a program without Z. -/
theorem dropZ_load (s : Session α) (text : String) : ((s.load text).edit .dropZ).2 =
    listing s.settings.format (Program.read text s.settings s.machine).dropZ.lines := by
  have hempty : ∀ p : Program α, p.lines = [] → ((Edit.dropZ : Edit α).change p s.settings).lines = [] := by
    intro p hnil
    rw [Edit.change, Program.lines_dropZ, hnil, List.map_nil]
  rw [edit_eq]
  exact Edit.apply_snd (by simp) (hempty _) s.machine

/-- Z is dropped twice. No line that may be edited has a Z any more, so the second text holds the lines of the first
one. It is the same text, unless a line that has been copied ends in a carriage return. -/
theorem dropZ_dropZ [Scalar.Printed α] (hzero : Scalar.isFinite (0 : α) = true) (s : Session α)
    (hmarkers : s.settings.markers.WithoutReturns) (text : String) :
    let p := (s.load text).program
    let first := (s.load text).edit .dropZ
    let second := first.1.edit .dropZ
    (∀ b ∈ first.1.program.lines, b.isEditable = true → b.z = none) ∧
      second.2 = Text.ofLines (Text.lines first.2) ∧
      (second.2 = first.2 ↔ ∀ b ∈ p.lines, b.dropsZ = false → b.text.toList.getLast? ≠ some '\r') := by
  intro p first second
  have hlines : ∀ line ∈ Text.lines text, '\n' ∉ line.toList := fun _ => Text.not_mem_of_mem_lines
  have hfirst : first.2 =
      listing s.settings.format (Program.ofLines (Text.lines text) s.settings s.machine).dropZ.lines := s.dropZ_load text
  have hagain : first.1 = s.load first.2 := s.edit_load_fst text .dropZ
  have hz : ∀ b ∈ first.1.program.lines, b.isEditable = true → b.z = none := by
    have hread := Program.z_eq_none_of_read_dropZ hlines s.settings s.machine hzero hmarkers
    rw [← hfirst] at hread
    rw [hagain]
    exact hread
  have hsecond : second.2 = Text.ofLines (Text.lines first.2) := by
    simp only [second]
    rw [hagain] at hz ⊢
    rw [s.dropZ_load]
    exact Program.listing_dropZ_of_z_eq_none hz
  refine ⟨hz, hsecond, ?_⟩
  have hwritten := Program.forall₂_dropZ hzero (Text.lines text) s.settings s.machine Emitted.atStart
  have hunbroken := Program.not_mem_dropZ hlines s.settings s.machine Emitted.atStart
  rw [hsecond, hfirst, listing, Text.lines_ofLines hunbroken, Text.ofLines_dropReturn_eq_iff hunbroken]
  exact (forall_mem_iff_of_forall₂ (R := Block.WrittenWithoutZ) (fun _ _ h => h.getLast?_ne_iff) hwritten).symm

/-- Words that look like a Z in comments are kept. Of two carriage returns at the end of a line that is copied, each
reading takes one off. -/
theorem dropZ_dropZ_of_returns :
    let s : Session Float := .new .default .default
    let first := (s.load "g1 x1 z2 (down to z2)\r\r\nG53 G0 Z5\nG1 X2\n").edit .dropZ
    let returned := (s.load "G1 X1 Z2\nG1 X2\r\r\n").edit .dropZ
    (Scalar.isFinite (0 : Float) = true ∧ s.settings.markers.WithoutReturns) ∧
      first.2 = "G1 X1 (down to z2)\nG53 G0 Z5\nG1 X2\n" ∧ (first.1.edit .dropZ).2 = first.2 ∧
      returned.2 = "G1 X1\nG1 X2\r\n" ∧ (returned.1.edit .dropZ).2 ≠ returned.2 := by
  intro s first returned
  have hzero : Scalar.isFinite (0 : Float) = true := by decide +kernel
  have hmarkers : s.settings.markers.WithoutReturns := Markers.withoutReturns_default
  obtain ⟨-, -, hfirst⟩ := dropZ_dropZ hzero s hmarkers "g1 x1 z2 (down to z2)\r\r\nG53 G0 Z5\nG1 X2\n"
  obtain ⟨-, -, hreturned⟩ := dropZ_dropZ hzero s hmarkers "G1 X1 Z2\nG1 X2\r\r\n"
  refine ⟨⟨hzero, hmarkers⟩, by decide +kernel, hfirst.mpr (by decide +kernel), by decide +kernel, fun hsame => ?_⟩
  exact absurd (hreturned.mp hsame) (by decide +kernel)

end Session

end PartProgram
