import PartProgram.Proofs.Block.Comments
import PartProgram.Proofs.Edit.Modes
import PartProgram.Proofs.Edit.Retracing

/-! # Listings read again

While a listing is written the speeds that it has put in effect are kept. They are the speeds that a
reader of the listing has, and with them every mode of a written line is found again.
-/

namespace PartProgram

open Word (latest)

variable {α : Type} [Field α] [LinearOrder α] [IsStrictOrderedRing α] [FloorRing α] [PlaneFunctions α]

namespace Block

/-- The block is that of a single visible line in work coordinates, without a call. -/
structure Survives (b : Block α) : Prop where
  fromText : b.FromText
  line : '\n' ∉ b.text.toList
  unmarked : Markers.onLine ({} : Markers).hideStart b.text = false
  machineFrame : b.machineFrame = false
  hidden : b.hidden = false
  call : b.call = none

variable {b b' : Block α} (format : NumberFormat) (e : Emitted α)

omit [IsStrictOrderedRing α] in
theorem Survives.edit (h : b.Survives) (hedit : b.EditOf b') : b'.Survives where
  fromText := h.fromText.edit hedit
  line := hedit.text ▸ h.line
  unmarked := hedit.text ▸ h.unmarked
  machineFrame := hedit.machineFrame.trans h.machineFrame
  hidden := hedit.hidden.trans h.hidden
  call := hedit.call.trans h.call

/-! ### One line -/

/-- The line of a listing as it is read again, without a carriage return at its end. -/
def reread (format : NumberFormat) (e : Emitted α) (b : Block α) : String :=
  String.ofList (Text.dropReturn (b.write format e).2.toList)

omit [IsStrictOrderedRing α] in
theorem wordsOf_reread_of_unmodified (hm : b.modified = false) :
    wordsOf (b.reread format e) = wordsOf b.text := by
  rw [reread, wordsOf, Content.ofLine_dropReturn, write, if_neg (by simp [hm])]
  rfl

omit [IsStrictOrderedRing α] in
theorem wordsOf_reread (h : b.FromText) :
    wordsOf (b.reread format e) = if b.modified then b.rewritten format e else wordsOf b.text := by
  split
  · rename_i hm
    rw [reread, wordsOf, Content.ofLine_dropReturn]
    exact h.wordsOf_write format e hm b.isFinite
  · rename_i hm
    exact wordsOf_reread_of_unmodified format e (by simpa using hm)

omit [IsStrictOrderedRing α] in
theorem codes_reread (h : b.FromText) :
    LineCodes.ofLine α (b.reread format e) = LineCodes.ofLine α b.text := by
  rw [LineCodes.ofLine_eq, LineCodes.ofLine_eq, wordsOf_reread format e h]
  split
  · exact foldl_steer_rewritten format e b {}
  · rfl

omit [IsStrictOrderedRing α] in
/-- A single line is written as a single line. -/
theorem FromText.not_mem_write (h : b.FromText) (hline : '\n' ∉ b.text.toList) :
    '\n' ∉ (b.write format e).2.toList := by
  by_cases hm : b.modified
  · rw [h.write_eq hm, String.toList_ofList, spelled]
    intro hmem
    rcases mem_intercalate hmem with hblank | ⟨chunk, hchunk, hmem⟩
    · simp at hblank
    · rcases List.mem_append.mp hchunk with hchunk | hchunk
      · obtain ⟨w, hw, rfl⟩ := List.mem_map.mp hchunk
        have hproper : w.Proper := proper_of_mem_rewritten format e b.isFinite w hw
        rcases List.mem_cons.mp hmem with heq | hmem
        · have hletter := hproper.letter
          rw [← heq] at hletter
          simp at hletter
        · simpa [Word.isValueChar] using hproper.value _ hmem
      · exact hline (Content.subset_of_mem_comments hchunk hmem)
  · rw [write, if_neg hm]
    exact hline

omit [IsStrictOrderedRing α] in
theorem unmarked_reread_of_unmodified (hm : b.modified = false)
    (hunmarked : Markers.onLine ({} : Markers).hideStart b.text = false) :
    Markers.onLine ({} : Markers).hideStart (b.reread format e) = false := by
  rw [← Bool.not_eq_true] at hunmarked ⊢
  refine fun hmark => hunmarked ?_
  rw [reread, write, if_neg (by simp [hm])] at hmark
  exact Markers.onLine_of_dropReturn hmark

omit [IsStrictOrderedRing α] in
/-- A changed line has the markers that are in comments of its text. -/
theorem FromText.onLine_reread (h : b.FromText) (hm : b.modified = true) {marker : String}
    (hblank : ' ' ∉ Text.upper marker.toList) (hpercent : '%' ∈ Text.upper marker.toList)
    (hcomment : Markers.InComment marker b.text) :
    Markers.onLine marker (b.reread format e) = Markers.onLine marker b.text := by
  have hproper : ∀ w ∈ b.rewritten format e, w.Proper := proper_of_mem_rewritten format e b.isFinite
  rw [Bool.eq_iff_iff]
  constructor
  · intro hmark
    rw [reread, h.write_eq hm] at hmark
    exact Markers.onLine_of_spelled hblank hpercent hproper (Markers.onLine_of_dropReturn hmark)
  · intro hmark
    obtain ⟨comment, hmem, hpart⟩ := hcomment hmark
    refine Markers.onLine_of_mem_comments ?_ hpart
    rwa [reread, h.write_eq hm, Content.ofLine_dropReturn, Content.comments_ofLine_spelled hproper]

omit [IsStrictOrderedRing α] in
theorem FromText.unmarked_reread (h : b.FromText)
    (hunmarked : Markers.onLine ({} : Markers).hideStart b.text = false) :
    Markers.onLine ({} : Markers).hideStart (b.reread format e) = false := by
  cases hm : b.modified with
  | false => exact unmarked_reread_of_unmodified format e hm hunmarked
  | true =>
      rw [h.onLine_reread format e hm (by decide) (by decide) fun hmark => absurd hmark (by simp [hunmarked]), hunmarked]

/-- What the listing has put in effect after a line is what the line has. -/
theorem write_fst {feed spindle : α} (hplaces : format.decimalPlaces ≤ 5)
    (hfeed : PartProgram.OnGrid format.decimalPlaces feed)
    (hspindle : PartProgram.OnGrid format.decimalPlaces spindle)
    (hbfeed : PartProgram.OnGrid format.decimalPlaces b.feed)
    (hbspindle : PartProgram.OnGrid format.decimalPlaces b.spindle) :
    (b.write format ⟨some feed, some spindle⟩).1 = ⟨some b.feed, some b.spindle⟩ := by
  have hlast : ∀ {last v : α}, PartProgram.OnGrid format.decimalPlaces last →
      PartProgram.OnGrid format.decimalPlaces v →
      (if Emitted.differs (some last) v then some v else some last) = some v := by
    intro last v hlast hv
    split
    · rfl
    · rename_i hdiffers
      rw [differs_iff hplaces hlast hv, not_not] at hdiffers
      rw [hdiffers]
  rw [write]
  split
  · rw [draft_eq]
    simp only [hlast hfeed hbfeed, hlast hspindle hbspindle]
  · rfl

variable {flips : Prop} {c : Carried α} {m : Modal α}

/-- The modes that a line read again leaves. -/
theorem Follows.after_reread (h : b.Follows flips c) (hfrom : b.FromText)
    (hplaces : format.decimalPlaces ≤ 5) (hgrid : b.OnGrid format.decimalPlaces)
    (hfeed : PartProgram.OnGrid format.decimalPlaces c.feed)
    (hspindle : PartProgram.OnGrid format.decimalPlaces c.spindle)
    (hm : m.motion.Like flips c.motion ∧ m.absolute = c.absolute ∧ m.feed = c.feed ∧ m.spindle = c.spindle) :
    let m' := m.after (b.reread format ⟨some c.feed, some c.spindle⟩)
    m'.motion.Like flips b.motion ∧ m'.absolute = b.absolute ∧ m'.feed = b.feed ∧ m'.spindle = b.spindle ∧
      (b.modified = true → m'.motion = b.motion) := by
  obtain ⟨hmotion, habsolute, hmfeed, hmspindle⟩ := hm
  simp only [Modal.after, wordsOf_reread format _ hfrom, habsolute, hmfeed, hmspindle]
  by_cases hmod : b.modified
  · simp only [hmod, if_true, latest_motion?_rewritten, if_neg (h.selects hmod), latest_distance?_rewritten,
      latest_feed?_rewritten format _ hgrid.feed, latest_spindle?_rewritten format _ hgrid.spindle]
    refine ⟨.refl _, h.absolute.symm, ?_, ?_, by simp⟩
    · split
      · rfl
      · rename_i hdiffers
        rwa [differs_iff hplaces hfeed hgrid.feed, not_not] at hdiffers
    · split
      · rfl
      · rename_i hdiffers
        rwa [differs_iff hplaces hspindle hgrid.spindle, not_not] at hdiffers
  · have hmod : b.modified = false := by simpa using hmod
    simp only [hmod, Bool.false_eq_true, if_false]
    exact ⟨(hmotion.latest _ _).trans (h.motion hmod), h.absolute.symm, (h.feed hmod).symm,
      (h.spindle hmod).symm, False.elim⟩

/-- The words that are read again are those of the block. -/
theorem lineWords_reread (hfrom : b.FromText) (hgrid : b.OnGrid format.decimalPlaces) :
    (lineWords (b.reread format e) : LineWords α).axes = b.axes ∧
      (lineWords (b.reread format e) : LineWords α).i = b.i ∧
      (lineWords (b.reread format e) : LineWords α).j = b.j := by
  rw [lineWords, wordsOf_reread format e hfrom]
  split
  · exact lineWords_rewritten format e hgrid
  · rename_i hm
    obtain ⟨haxes, hi, hj⟩ := hfrom.unmodified (by simpa using hm)
    exact ⟨haxes.symm, hi.symm, hj.symm⟩

theorem machineFrame_reread (hfrom : b.FromText) :
    (lineWords (b.reread format e) : LineWords α).machineFrame = b.machineFrame := by
  rw [lineWords, wordsOf_reread format e hfrom]
  split
  · have hframe := hfrom.any_isMachineFrame_rewritten format e
    generalize b.rewritten format e = ws at hframe
    simp [LineWords.foldl_add, hframe]
  · exact hfrom.machineFrame.symm

/-- A line of the listing read again, by a reader with the modes that its block found. -/
theorem Follows.readLine_reread (h : b.Follows flips c) (hsurvives : b.Survives)
    (hplaces : format.decimalPlaces ≤ 5) (hgrid : b.OnGrid format.decimalPlaces)
    (hfeed : PartProgram.OnGrid format.decimalPlaces c.feed)
    (hspindle : PartProgram.OnGrid format.decimalPlaces c.spindle)
    (hunchanged : flips → b.modified = false → b.hasCoordinates = true → b.motion.isArc = false)
    {source : Source} (hmarkers : source.markers = {}) {r : ProgramReader α} (hr : r.Matches flips c)
    (hhidden : r.hidden = false) (number : ℕ) :
    ∃ r' b', r.readLine source (number, b.reread format ⟨some c.feed, some c.spindle⟩) = (r', .ofLine b') ∧
      r'.Matches flips (b.leaves c) ∧ r'.hidden = false ∧ Reread flips c.ended b b' := by
  have hcodes := codes_reread format ⟨some c.feed, some c.spindle⟩ hsurvives.fromText
  have hunmarked := hsurvives.fromText.unmarked_reread format ⟨some c.feed, some c.spindle⟩ hsurvives.unmarked
  obtain ⟨hmotion, habsolute, hf, hs, hmod⟩ := h.after_reread format hsurvives.fromText hplaces hgrid hfeed
    hspindle ⟨hr.motion, hr.absolute, hr.feed, hr.spindle⟩
  obtain ⟨haxes, hi, hj⟩ := lineWords_reread format ⟨some c.feed, some c.spindle⟩ hsurvives.fromText hgrid
  have hframe := (machineFrame_reread format ⟨some c.feed, some c.spindle⟩ hsurvives.fromText).trans
    hsurvives.machineFrame
  generalize b.reread format ⟨some c.feed, some c.spindle⟩ = line at *
  have hcall : (LineCodes.ofLine α line).call? = none := by
    rw [hcodes, ← hsurvives.fromText.call, hsurvives.call]
  have hhides : source.markers.hides r.hidden line = false := by
    rw [hmarkers, hhidden, Markers.hides, hunmarked]
    simp
  obtain ⟨r', b', hread⟩ := ProgramReader.exists_readsLine source r (l := (number, line)) hcall
  refine ⟨r', b', hread.eq, ⟨?_, ?_, ?_, ?_, ?_⟩, hread.hides.trans hhides, ?_⟩
  · exact hread.modal ▸ hmotion
  · exact hread.modal ▸ habsolute
  · exact hread.modal ▸ hf
  · exact hread.modal ▸ hs
  · rw [hread.ended, hr.ended, hcodes, ← hsurvives.fromText.programEnd, leaves]
  · constructor
    case axes => exact hread.axes.trans haxes
    case i => exact hread.i.trans hi
    case j => exact hread.j.trans hj
    case absolute => exact hread.absolute.trans habsolute
    case feed => exact hread.feed.trans hf
    case spindle => exact hread.spindle.trans hs
    case motion => exact hread.motion ▸ hmotion
    case same =>
      intro hcoordinates
      rw [hread.motion]
      cases hm : b.modified with
      | true => exact hmod hm
      | false => exact hmotion.eq_of_not_isArc fun hflips => hunchanged hflips hm hcoordinates
    case machineFrame => exact ⟨hsurvives.machineFrame, hread.machineFrame.trans hframe⟩
    case hidden => exact ⟨hsurvives.hidden, hread.hidden.trans hhides⟩
    case afterEnd => exact hread.afterEnd.trans hr.ended
    case ended => exact h.ended

end Block

/-! ### A whole listing -/

/-- What is asked of the lines of a listing. -/
structure Block.Rewritable (places : ℕ) (flips : Prop) (b : Block α) : Prop where
  survives : b.Survives
  grid : b.OnGrid places
  unchanged : flips → b.modified = false → b.hasCoordinates = true → b.motion.isArc = false

/-- A listing of lines that follow each other is read again, line by line. -/
theorem Chained.retraces {flips : Prop} {format : NumberFormat} (hplaces : format.decimalPlaces ≤ 5)
    {bs : List (Block α)} {c : Carried α} (h : Chained flips c bs)
    (hbs : ∀ b ∈ bs, b.Rewritable format.decimalPlaces flips)
    (hfeed : OnGrid format.decimalPlaces c.feed) (hspindle : OnGrid format.decimalPlaces c.spindle)
    (source : Source) (hmarkers : source.markers = {}) {r : ProgramReader α} (hr : r.Matches flips c)
    (hhidden : r.hidden = false) (number : ℕ) :
    ∃ bs', (pass (ProgramReader.readLine source) r
        (((pass (Block.write format) ⟨some c.feed, some c.spindle⟩ bs).2.map fun line =>
          String.ofList (Text.dropReturn line.toList)).mapIdx fun n line => (number + n, line))).2 =
        bs'.map .ofLine ∧
      Retraces flips c.ended bs bs' := by
  induction bs generalizing c r number with
  | nil => exact ⟨[], rfl, .nil c.ended⟩
  | cons b bs ih =>
      obtain ⟨hfollows, hchained⟩ := h
      have hb := hbs b (by simp)
      obtain ⟨r', b', hread, hmatches, hvisible, hreread⟩ := hfollows.readLine_reread format hb.survives hplaces
        hb.grid hfeed hspindle hb.unchanged hmarkers hr hhidden number
      have hwrite := Block.write_fst format hplaces hfeed hspindle hb.grid.feed hb.grid.spindle
      obtain ⟨bs', hpass, hretraces⟩ := ih hchained (fun b hb => hbs b (by simp [hb])) hb.grid.feed
        hb.grid.spindle hmatches hvisible (number + 1)
      refine ⟨b' :: bs', ?_, .cons hreread hretraces⟩
      have hshift : ∀ n : ℕ, number + 1 + n = number + (n + 1) := by omega
      rw [pass_cons, hwrite, List.map_cons, List.mapIdx_cons, pass_cons, Nat.add_zero]
      rw [Block.reread] at hread
      rw [hread, List.map_cons, ← hpass]
      simp only [hshift, Block.leaves]

end PartProgram
