import PartProgram.Proofs.Edit.Carrying
import PartProgram.Proofs.Edit.Cutting
import PartProgram.Proofs.Edit.Dropping
import PartProgram.Proofs.Edit.Reslotting

/-! # Offsetting twice

The text of an offset is read again and offset once more. On the lines that are read the search for a slot finds what
it would have found on the shifted lines, except that lines without a motion run rapidly behind the move that has been
added. So a second move is added exactly where that search finds a slot again.
-/

namespace PartProgram

open Word (latest)

/-! ### Lines read in turn -/

/-- What a line leaves for the next one, as far as the search for a slot looks at it. -/
structure Standing where
  motion : Motion
  absolute : Bool
  hidden : Bool
  ended : Bool

def Standing.start : Standing := ⟨.unset, true, false, false⟩

section

variable {α : Type} [Scalar α] {markers : Markers}

omit [Scalar α] in
def Block.standing (b : Block α) : Standing := ⟨b.motion, b.absolute, b.hidden, b.afterEnd || b.programEnd⟩

/-- The block has been read from its text with what the lines before it leave. -/
structure Block.ReadIn (markers : Markers) (c : Standing) (b : Block α) : Prop where
  motion : b.motion = latest (Word.motion? α) c.motion (wordsOf b.text)
  absolute : b.absolute = latest (Word.distance? α) c.absolute (wordsOf b.text)
  hidden : b.hidden = markers.hides c.hidden b.text
  ended : b.afterEnd = c.ended

/-- A motion before the line makes a difference only if none has been selected there either. -/
theorem Block.ReadIn.motion_orElse {c : Standing} {b : Block α} (h : b.ReadIn markers c) (d : Motion) :
    b.motion.orElse (c.motion.orElse d) = b.motion.orElse d := by
  by_cases hunset : b.motion = .unset
  · rw [Word.eq_unset_of_latest (h.motion.symm.trans hunset)]
    rfl
  · rw [Motion.orElse_of_ne hunset, Motion.orElse_of_ne hunset]

/-- Each block has been read with what the one before it leaves. -/
def ReadInTurn (markers : Markers) : Standing → List (Block α) → Prop
  | _, [] => True
  | c, b :: bs => b.ReadIn markers c ∧ ReadInTurn markers b.standing bs

/-- What is left if a motion has been selected before. -/
def Standing.runUnder (motion : Motion) (c : Standing) : Standing := { c with motion := c.motion.orElse motion }

/-- What some lines leave. -/
def Standing.after (c : Standing) (bs : List (Block α)) : Standing := bs.foldl (fun _ b => b.standing) c

theorem readInTurn_append {c : Standing} {xs ys : List (Block α)} :
    ReadInTurn markers c (xs ++ ys) ↔ ReadInTurn markers c xs ∧ ReadInTurn markers (c.after xs) ys := by
  induction xs generalizing c with
  | nil => simp [ReadInTurn, Standing.after]
  | cons x xs ih => simp [ReadInTurn, Standing.after, ih, and_assoc]

theorem readInTurn_pass (source : Source) {ls : List (ℕ × String)}
    (h : ∀ l ∈ ls, (LineCodes.ofLine α l.2).call? = none) {r : ProgramReader α} {c : Standing}
    (hr : c = ⟨r.reader.modal.motion, r.reader.modal.absolute, r.hidden, r.ended⟩) :
    ReadInTurn source.markers c ((pass (ProgramReader.readLine source) r ls).2.map (·.line)) := by
  induction ls generalizing r c with
  | nil => trivial
  | cons l ls ih =>
      obtain ⟨r', b, hb⟩ := ProgramReader.exists_readsLine source r (h l (by simp))
      subst hr
      rw [pass_cons, hb.eq, List.map_cons]
      refine ⟨⟨?_, ?_, ?_, hb.afterEnd⟩, ih (fun l hl => h l (by simp [hl])) ?_⟩
      · rw [Entry.ofLine, hb.motion, hb.text, Modal.after]
      · rw [Entry.ofLine, hb.absolute, hb.text, Modal.after]
      · rw [Entry.ofLine, hb.hidden, hb.text]
      · simp only [Block.standing, Entry.ofLine, hb.motion, hb.absolute, hb.hidden, hb.afterEnd, hb.programEnd,
          hb.modal, hb.hides, hb.ended]

/-- A program without calls is read line by line. -/
theorem Program.readInTurn_ofLines {lines : List String} {settings : Settings α} {machine : Machine α}
    (h : ∀ line ∈ lines, (LineCodes.ofLine α line).call? = none) :
    ReadInTurn settings.markers .start (ofLines lines settings machine).lines := by
  have hunplaced : ∀ {c : Standing} {bs : List (Block α)},
      ReadInTurn settings.markers c (bs.map Block.unplaced) ↔ ReadInTurn settings.markers c bs := by
    intro c bs
    induction bs generalizing c with
    | nil => exact Iff.rfl
    | cons b bs ih =>
        exact and_congr ⟨fun h => ⟨h.motion, h.absolute, h.hidden, h.ended⟩,
          fun h => ⟨h.motion, h.absolute, h.hidden, h.ended⟩⟩ ih
  have hcalls : ∀ l ∈ lines.mapIdx fun n line => (n, line), (LineCodes.ofLine α l.2).call? = none := by
    intro l hl
    refine h l.2 ?_
    rw [← map_snd_mapIdx lines]
    exact List.mem_map_of_mem hl
  rw [← hunplaced, ofLines_eq, lines_place, hunplaced]
  exact readInTurn_pass (Source.ofLines α lines settings.calls settings.markers) hcalls
    (r := ⟨⟨Modal.initial, none⟩, false, false⟩) rfl

/-- The line that a shift makes of a line. -/
structure Block.ShiftsTo (b b' : Block α) : Prop where
  edit : b.EditOf b'
  grows : b.GrowsTo b'
  changed : b'.modified = true → b.isEditable = true ∧ b.hasCoordinates = true

/-- Shifted lines have the modes that have been read. -/
theorem ReadInTurn.shiftsTo {c : Standing} {bs bs' : List (Block α)} (hbs : ReadInTurn markers c bs)
    (h : List.Forall₂ Block.ShiftsTo bs bs') : ReadInTurn markers c bs' ∧ c.after bs' = c.after bs := by
  induction h generalizing c with
  | nil => exact ⟨trivial, rfl⟩
  | @cons b b' _ _ hb _ ih =>
      obtain ⟨hread, hbs⟩ := hbs
      have hstanding : b'.standing = b.standing := by
        rw [Block.standing, Block.standing, hb.grows.motion, hb.edit.absolute, hb.edit.hidden, hb.edit.afterEnd,
          hb.edit.programEnd]
      obtain ⟨hrest, hafter⟩ := ih hbs
      refine ⟨⟨⟨?_, ?_, ?_, ?_⟩, hstanding ▸ hrest⟩, ?_⟩
      · rw [hb.grows.motion, hb.edit.text, hread.motion]
      · rw [hb.edit.absolute, hb.edit.text, hread.absolute]
      · rw [hb.edit.hidden, hb.edit.text, hread.hidden]
      · rw [hb.edit.afterEnd, hread.ended]
      · rw [Standing.after, List.foldl_cons, hstanding]
        exact hafter

end

/-! ### Lines read back -/

namespace Markers

variable {markers : Markers} {hidden : Bool} {line : String}

/-- A visible line does not begin a hidden section. -/
theorem onLine_of_hides_eq_false (h : markers.hides hidden line = false) : onLine markers.hideStart line = false := by
  rw [← Bool.not_eq_true]
  intro hstart
  simp [hides, hstart] at h

/-- Lines with the same markers hide the same lines. -/
theorem hides_congr {line' : String} (hstart : onLine markers.hideStart line' = onLine markers.hideStart line)
    (hstop : onLine markers.hideStop line' = onLine markers.hideStop line) (hidden : Bool) :
    markers.hides hidden line' = markers.hides hidden line := by
  rw [hides, hides, hstart, hstop]

end Markers

variable {α : Type} [Field α] [LinearOrder α] [IsStrictOrderedRing α] [FloorRing α] [PlaneFunctions α]

omit [IsStrictOrderedRing α] in
/-- A motion that has been selected before makes a difference as long as no word selects one. -/
theorem Word.latest_motion?_orElse (m d : Motion) (ws : List Word) :
    latest (Word.motion? α) (m.orElse d) ws = (latest (Word.motion? α) m ws).orElse d := by
  induction ws generalizing m with
  | nil => rfl
  | cons w ws ih =>
      rw [Word.latest_cons, Word.latest_cons]
      cases hw : w.motion? α with
      | none => exact ih m
      | some motion =>
          have hset : motion ≠ .unset := fun hunset => w.motion?_ne_unset (hunset ▸ hw)
          have hrest := ih motion
          rwa [Motion.orElse_of_ne hset] at hrest

namespace Block

/-- The second block has been read from what is written for the first one. -/
structure ReadBack (b q : Block α) : Prop where
  motion : ∀ m, latest (Word.motion? α) m (wordsOf q.text) =
    if b.modified then b.motion.orElse m else latest (Word.motion? α) m (wordsOf b.text)
  distance : ∀ a, latest (Word.distance? α) a (wordsOf q.text) = latest (Word.distance? α) a (wordsOf b.text)
  hides : (b.modified = true → Markers.onLine ({} : Markers).hideStart b.text = false ∧
    Markers.InComment ({} : Markers).hideStop b.text) →
    ∀ hidden, ({} : Markers).hides hidden q.text = ({} : Markers).hides hidden b.text
  footer : q.footer = b.footer
  machineFrame : q.machineFrame = b.machineFrame
  programEnd : q.programEnd = b.programEnd
  axes : ∀ axis, (q.axes.get axis).isSome = (b.axes.get axis).isSome
  i : q.i.isSome = b.i.isSome
  j : q.j.isSome = b.j.isSome

variable {b q : Block α}

/-- What is written for a line is read back. -/
theorem readBack (hfrom : b.FromText) (hfooter : b.footer = Markers.onLine ({} : Markers).setupFooter b.text)
    (hunfooted : b.modified = true → b.footer = false) (hqfrom : q.FromText) (hqmodified : q.modified = false)
    (hqfooter : q.footer = Markers.onLine ({} : Markers).setupFooter q.text) {format : NumberFormat} {e : Emitted α}
    (htext : q.text = b.reread format e) : b.ReadBack q := by
  have hwords : wordsOf q.text = if b.modified then b.rewritten format e else wordsOf b.text := by
    rw [htext, wordsOf_reread format e hfrom]
  have hcopied : b.modified = false → q.text = String.ofList (Text.dropReturn b.text.toList) := by
    intro hm
    rw [htext, reread, write_of_unmodified hm]
  have hnumber : ∀ {c : Char} {value : Option α}, IsPathLetter c →
      (b.numbers e).filter (·.1 == c) = (value.map (c, ·)).toList →
      (b.modified = false → value = latest (Word.written? α c) none (wordsOf b.text)) →
      (latest (Word.written? α c) none (wordsOf q.text)).isSome = value.isSome := by
    intro c value hc hnumbers hsame
    rw [hwords]
    split
    · rw [latest_written?_rewritten_eq_rounded format e hc hnumbers, Option.isSome_map]
    · rename_i hm
      rw [hsame (by simpa using hm)]
  obtain ⟨hqaxes, hqi, hqj⟩ := hqfrom.written hqmodified
  constructor
  case motion =>
    intro m
    rw [hwords]
    split
    · exact latest_motion?_rewritten format e m
    · rfl
  case distance =>
    intro a
    rw [hwords]
    split
    · exact latest_distance?_rewritten format e a
    · rfl
  case hides =>
    intro hvisible hidden
    cases hm : b.modified with
    | false => rw [hcopied hm, Markers.withoutReturns_default.hides_dropReturn]
    | true =>
        obtain ⟨hstart, hstop⟩ := hvisible hm
        rw [htext]
        refine Markers.hides_congr ?_ (hfrom.onLine_reread format e hm (by decide) (by decide) hstop) hidden
        rw [hstart, hfrom.unmarked_reread format e hstart]
  case footer =>
    cases hm : b.modified with
    | false => rw [hqfooter, hcopied hm, Markers.onLine_dropReturn Markers.withoutReturns_default.setupFooter, hfooter]
    | true =>
        rw [hunfooted hm, hqfooter, ← Bool.not_eq_true]
        refine fun hmark => absurd (hunfooted hm) ?_
        rw [htext, reread, hfrom.write_eq hm] at hmark
        rw [hfooter, Markers.onLine_of_spelled_of_head (by decide +kernel) (by decide +kernel)
          (proper_of_mem_rewritten format e b.isFinite) (Markers.onLine_of_dropReturn hmark)]
        simp
  case machineFrame => rw [hqfrom.machineFrame, htext, machineFrame_reread format e hfrom]
  case programEnd => rw [hqfrom.programEnd, htext, codes_reread format e hfrom, hfrom.programEnd]
  case axes =>
    intro axis
    rw [hqaxes]
    exact hnumber (.inl ⟨axis, rfl⟩) (filter_numbers_axis e b axis) fun hm => (hfrom.written hm).1 axis
  case i =>
    rw [hqi]
    exact hnumber (.inr (.inl rfl)) (filter_numbers e b).1 fun hm => (hfrom.written hm).2.1
  case j =>
    rw [hqj]
    exact hnumber (.inr (.inr (.inl rfl))) (filter_numbers e b).2.1 fun hm => (hfrom.written hm).2.2

omit [IsStrictOrderedRing α] in
/-- The line that has been read back stands for the one that has been written, with the motion that was selected before
it. That motion may be forgotten where the line selects its own, and so may the distance mode. -/
theorem ReadBack.looksLike (h : b.ReadBack q) {c c' : Standing} (hb : b.ReadIn {} c) (hq : q.ReadIn {} c') {d : Motion}
    (hmotion : c'.motion = c.motion.orElse d ∨ b.modified = true ∧ c'.motion = d)
    (habsolute : c'.absolute = c.absolute ∨ c'.absolute = b.absolute) (hhidden : c'.hidden = c.hidden)
    (hended : c'.ended = c.ended)
    (hvisible : b.modified = true → b.hidden = false ∧ Markers.InComment ({} : Markers).hideStop b.text) :
    (b.runUnder d).LooksLike q ∧ q.standing = b.standing.runUnder d := by
  have hqmotion : q.motion = b.motion.orElse d := by
    rw [hq.motion, h.motion]
    split
    · rcases hmotion with hmotion | ⟨-, hmotion⟩
      · rw [hmotion, hb.motion_orElse]
      · rw [hmotion]
    · rename_i hm
      rw [hmotion.resolve_right fun hright => hm hright.1, Word.latest_motion?_orElse, ← hb.motion]
  have hqabsolute : q.absolute = b.absolute := by
    rw [hq.absolute, h.distance]
    rcases habsolute with habsolute | habsolute
    · rw [habsolute, ← hb.absolute]
    · rw [habsolute, hb.absolute, Word.latest_latest]
  have hqhidden : q.hidden = b.hidden := by
    rw [hq.hidden, hhidden, h.hides, hb.hidden]
    intro hm
    obtain ⟨hbhidden, hstop⟩ := hvisible hm
    exact ⟨Markers.onLine_of_hides_eq_false (hb.hidden ▸ hbhidden), hstop⟩
  have hqafter : q.afterEnd = b.afterEnd := by rw [hq.ended, hended, hb.ended]
  have hqeditable : q.isEditable = b.isEditable := by
    rw [isEditable, isEditable, h.machineFrame, hqhidden, h.footer]
  have hqcoordinates : q.hasCoordinates = b.hasCoordinates := by
    simp only [hasCoordinates, AxisWords.any, h.axes, h.i, h.j]
  refine ⟨⟨?_, ?_⟩, ?_⟩
  · exact ⟨hqeditable, hqafter, hqabsolute, hqmotion, hqcoordinates, fun hx => (h.axes .x).trans hx,
      fun hy => (h.axes .y).trans hy, h.axes .z⟩
  · exact ⟨hqeditable.symm, hqafter.symm, hqabsolute.symm, hqmotion.symm, hqcoordinates.symm,
      fun hx => (h.axes .x).symm.trans hx, fun hy => (h.axes .y).symm.trans hy, (h.axes .z).symm⟩
  · rw [standing, hqmotion, hqabsolute, hqhidden, hqafter, h.programEnd]
    rfl

end Block

omit [IsStrictOrderedRing α] in
/-- Lines that have been read back stand for those that have been written. -/
theorem looksLike_of_readBack {bs qs : List (Block α)} (h : List.Forall₂ Block.ReadBack bs qs) {c : Standing} {d : Motion}
    (hbs : ReadInTurn {} c bs) (hqs : ReadInTurn {} (c.runUnder d) qs)
    (hvisible : ∀ b ∈ bs, b.modified = true → b.hidden = false ∧ Markers.InComment ({} : Markers).hideStop b.text) :
    List.Forall₂ (fun b q => (b.runUnder d).LooksLike q) bs qs ∧ (c.runUnder d).after qs = (c.after bs).runUnder d := by
  induction h generalizing c with
  | nil => exact ⟨.nil, rfl⟩
  | @cons b q _ _ hb _ ih =>
      obtain ⟨hread, hbs⟩ := hbs
      obtain ⟨hqread, hqs⟩ := hqs
      obtain ⟨hlooks, hstanding⟩ := hb.looksLike hread hqread (.inl rfl) (.inl rfl) rfl rfl (hvisible b (by simp))
      obtain ⟨hrest, hafter⟩ := ih hbs (hstanding ▸ hqs) fun b hb => hvisible b (by simp [hb])
      rw [Standing.after, List.foldl_cons, hstanding]
      exact ⟨.cons hlooks hrest, hafter⟩

/-! ### The lines of a shifted program -/

namespace Block

variable (delta : Point α) (pending : Pending) {b : Block α}

omit [IsStrictOrderedRing α] in
theorem shiftsTo_shiftLine (hm : b.modified = false) : b.ShiftsTo (b.shiftLine delta pending).2 where
  edit := (b.changesTo_shiftLine delta pending).edit
  grows := b.growsTo_shiftLine delta pending
  changed h := (changed_of_shiftLine delta pending h).resolve_left (by simp [hm])

omit [IsStrictOrderedRing α] in
theorem shiftsTo_shiftLine_marked (h : b.hasOffsets = true) :
    b.ShiftsTo (shiftLine delta pending { b with modified := true }).2 := by
  simp only [hasOffsets, mayShift, Bool.and_eq_true] at h
  exact ⟨b.editOf_modified.trans (changesTo_shiftLine delta pending _).edit,
    (MarkedAs.looksLike (.inr rfl)).1.trans (growsTo_shiftLine delta pending _), fun _ => ⟨h.1.1.1, h.2⟩⟩

end Block

/-- The second list holds the lines of the first one shifted, and the move for their slot. -/
inductive ShiftsLines (delta : Point α) (bs : List (Block α)) : List (Block α) → Prop where
  | unmoved {bs'} (hslot : offsetSlot bs = none) (h : List.Forall₂ Block.ShiftsTo bs bs') : ShiftsLines delta bs bs'
  | moved {slot front back} (hslot : offsetSlot bs = some slot) (feed spindle : α) (pending : Pending)
      (hfront : List.Forall₂ Block.ShiftsTo (bs.take slot.line) front)
      (hback : List.Forall₂ Block.ShiftsTo (bs.drop slot.line) back)
      (hlooks : List.Forall₂ Block.LooksLike (bs.drop slot.line) back)
      (hmarked : slot.selectsRelative = true → ∀ b ∈ back.head?, b.modified = true) :
      ShiftsLines delta bs
        (front ++ ((offsetMove slot "(offset move)" feed spindle).shiftLine delta pending).2 :: back)

theorem Program.shiftsLines_shift {p : Program α} (hm : ∀ b ∈ p.lines, b.modified = false)
    (hrelative : ∀ b ∈ p.lines, b.absolute = false → p.containsRelative = true) (delta : Point α) :
    ShiftsLines delta p.lines (p.shift delta "(offset move)").lines := by
  have hshifts : ∀ {bs : List (Block α)} (pending : Pending), (∀ b ∈ bs, b.modified = false) →
      List.Forall₂ Block.ShiftsTo bs (pass (Block.shiftLine delta) pending bs).2 := by
    intro bs pending hbs
    refine forall₂_pass_of_forall₂ (R := fun b c => b.modified = false ∧ c = b) ?_ pending
      (List.forall₂_same.mpr fun b hb => ⟨hbs b hb, rfl⟩)
    rintro pending b _ ⟨hb, rfl⟩
    exact Block.shiftsTo_shiftLine delta pending hb
  rw [shift, lines_shiftLines]
  cases hslot : offsetSlot p.lines with
  | none =>
      have hsame : (p.withOffsetMove "(offset move)").lines = p.lines := by
        rw [withOffsetMove]
        cases p.containsRelative <;> simp [hslot]
      rw [hsame]
      exact .unmoved hslot (hshifts _ hm)
  | some slot =>
      have hcontains : p.containsRelative = true := by
        obtain ⟨b, hb, habsolute⟩ := exists_relative_of_offsetSlot hslot
        exact hrelative b hb habsolute
      obtain ⟨feed, spindle, hlines⟩ := lines_withOffsetMove hcontains hslot "(offset move)"
      have hpending : ∀ pending, ((offsetMove slot "(offset move)" feed spindle).shiftLine delta pending).1 =
          ⟨false, false⟩ := fun pending =>
        Block.shiftLine_fst_of_takesShift delta pending (isEditable_offsetMove isSilent_default slot feed spindle)
          (takesShift_offsetMove isSilent_default slot feed spindle)
      rw [hlines, pass_append, pass_cons, hpending]
      have hdrop : ∀ b ∈ p.lines.drop slot.line, b.modified = false := fun b hb => hm b (List.mem_of_mem_drop hb)
      have hlooks : List.Forall₂ Block.LooksLike (p.lines.drop slot.line)
          (pass (Block.shiftLine delta) ⟨false, false⟩ (slot.marked (p.lines.drop slot.line))).2 := by
        refine (forall₂_comp (slot.markedAs_marked _) (looksLike_pass_shiftLine delta _)).imp ?_
        rintro b b' ⟨marked, hmark, hshifted⟩
        exact hmark.looksLike.trans hshifted
      refine .moved hslot feed spindle _ (hshifts _ fun b hb => hm b (List.mem_of_mem_take hb)) ?_ hlooks ?_
      · rcases cases_of_offsetSlot hslot with ⟨hretract, -⟩ | ⟨hselects, -, b, after, hback, hb⟩
        · rw [OffsetSlot.marked, if_neg (by simp [hretract])]
          exact hshifts _ hdrop
        · rw [hback] at hdrop ⊢
          rw [OffsetSlot.marked, if_pos hselects, List.modify_zero_cons, pass_cons]
          exact .cons (Block.shiftsTo_shiftLine_marked delta _ hb) (hshifts _ fun c hc => hdrop c (by simp [hc]))
      · intro hselects b hb
        rw [OffsetSlot.marked, if_pos hselects] at hb
        cases hback : p.lines.drop slot.line with
        | nil => simp [hback] at hb
        | cons c after =>
            rw [hback, List.modify_zero_cons, pass_cons] at hb
            obtain rfl := Option.some_inj.mp hb
            exact (Block.changesTo_shiftLine delta _ _).edit.modified rfl

/-! ### The text of a shifted program -/

namespace Block

/-- What is written for the block can be read back. -/
structure Readable (b : Block α) : Prop where
  fromText : b.FromText
  line : '\n' ∉ b.text.toList
  footer : b.footer = Markers.onLine ({} : Markers).setupFooter b.text
  unfooted : b.modified = true → b.footer = false
  call : b.call = none

variable {b b' : Block α}

omit [IsStrictOrderedRing α] in
theorem Readable.edit (h : b.Readable) (hedit : b.EditOf b') (hchanged : b'.modified = true → b.isEditable = true) :
    b'.Readable := by
  have hfooter : b'.footer = b.footer := by rw [hedit.kept]
  refine ⟨h.fromText.edit hedit, hedit.text ▸ h.line, ?_, fun hm => ?_, hedit.call.trans h.call⟩
  · rw [hfooter, hedit.text, h.footer]
  · have heditable := hchanged hm
    simp only [isEditable, Bool.not_eq_true', Bool.or_eq_false_iff] at heditable
    rw [hfooter, heditable.2]

theorem readable_offsetMove (slot : OffsetSlot) (feed spindle : α) :
    (offsetMove slot "(offset move)" feed spindle).Readable := by
  obtain ⟨-, -, -, -, -, -, hcall, -⟩ := offsetMove_modes isSilent_default slot feed spindle
  obtain ⟨-, -, hfooter⟩ := offsetMove_xy isSilent_default slot feed spindle
  have hfrom : (offsetMove slot "(offset move)" feed spindle).FromText :=
    (fromText_read slot.line _ _).edit (editOf_modified _)
  refine ⟨hfrom, ?_, ?_, fun _ => hfooter, hcall⟩
  · rw [text_offsetMove]
    cases slot.selectsRelative <;> decide +kernel
  · rw [hfooter, text_offsetMove]
    cases slot.selectsRelative <;> decide +kernel

end Block

omit [IsStrictOrderedRing α] in
theorem ShiftsLines.length_eq {delta : Point α} {bs bs' : List (Block α)} (h : ShiftsLines delta bs bs') :
    bs'.length = bs.length + if (offsetSlot bs).isSome then 1 else 0 := by
  cases h with
  | unmoved hslot h => simp [hslot, h.length_eq]
  | @moved slot front back hslot feed spindle pending hfront hback =>
      have hlength : (bs.take slot.line).length + (bs.drop slot.line).length = bs.length := by
        rw [← List.length_append, List.take_append_drop]
      rw [hslot, Option.isSome_some, if_pos rfl, List.length_append, List.length_cons, ← hfront.length_eq,
        ← hback.length_eq, ← hlength, Nat.add_assoc]

theorem ShiftsLines.readable {delta : Point α} {bs bs' : List (Block α)} (h : ShiftsLines delta bs bs')
    (hbs : ∀ b ∈ bs, b.Readable) : ∀ b ∈ bs', b.Readable := by
  have hshifts : ∀ {bs bs' : List (Block α)}, List.Forall₂ Block.ShiftsTo bs bs' → (∀ b ∈ bs, b.Readable) →
      ∀ b ∈ bs', b.Readable := fun h =>
    forall_mem_of_forall₂ (fun _ _ hb hreadable => hreadable.edit hb.edit fun hm => (hb.changed hm).1) h
  cases h with
  | unmoved _ h => exact hshifts h hbs
  | @moved slot front back _ feed spindle pending hfront hback =>
      intro b hb
      rcases List.mem_append.mp hb with hb | hb
      · exact hshifts hfront (fun b hb => hbs b (List.mem_of_mem_take hb)) b hb
      · rcases List.mem_cons.mp hb with rfl | hb
        · exact (Block.readable_offsetMove slot feed spindle).edit (Block.changesTo_shiftLine delta pending _).edit
            fun _ => isEditable_offsetMove isSilent_default slot feed spindle
        · exact hshifts hback (fun b hb => hbs b (List.mem_of_mem_drop hb)) b hb

/-! ### The slot in the text of a shifted program -/

section

variable {bs bs' qs : List (Block α)} {c : Standing}
  (hstops : ∀ b ∈ bs, b.isEditable = true → b.hasCoordinates = true →
    Markers.InComment ({} : Markers).hideStop b.text)

include hstops

omit [Field α] [LinearOrder α] [IsStrictOrderedRing α] [FloorRing α] [PlaneFunctions α] in
/-- No line that is changed is hidden. If it ends a hidden section, it does so in a comment. -/
theorem visible_of_shiftsTo (h : List.Forall₂ Block.ShiftsTo bs bs') :
    ∀ b ∈ bs', b.modified = true → b.hidden = false ∧ Markers.InComment ({} : Markers).hideStop b.text := by
  refine forall_mem_of_forall₂ (fun b b' hb hstop hm => ?_) h hstops
  obtain ⟨heditable, hcoordinates⟩ := hb.changed hm
  refine ⟨?_, hb.edit.text ▸ hstop heditable hcoordinates⟩
  simp only [Block.isEditable, Bool.not_eq_true', Bool.or_eq_false_iff] at heditable
  rw [hb.edit.hidden, heditable.1.2]

omit [IsStrictOrderedRing α] in
/-- Shifted lines that are read back stand for the lines before they have been shifted. -/
theorem growsTo_of_readBack (h : List.Forall₂ Block.ShiftsTo bs bs') (hback : List.Forall₂ Block.ReadBack bs' qs)
    (hbs : ReadInTurn {} c bs) (hqs : ReadInTurn {} c qs) :
    List.Forall₂ Block.GrowsTo bs qs ∧ c.after qs = c.after bs := by
  have hunset : ∀ c : Standing, c.runUnder .unset = c := fun c => by rw [Standing.runUnder, Motion.orElse_unset]
  obtain ⟨hbs', hafter⟩ := hbs.shiftsTo h
  obtain ⟨hlooks, hqafter⟩ := looksLike_of_readBack hback hbs' ((hunset c).symm ▸ hqs) (visible_of_shiftsTo hstops h)
  rw [hunset, hunset, hafter] at hqafter
  refine ⟨(forall₂_comp h hlooks).imp ?_, hqafter⟩
  rintro b q ⟨b', hb, hlook⟩
  rw [Block.runUnder_unset] at hlook
  exact hb.grows.trans hlook.1

omit [IsStrictOrderedRing α] in
/-- The marked line in front of which the move has been added may be changed, and it is not behind the end of the
program. It and the lines after it run under the motion of the move. -/
theorem looksLike_of_marked {b : Block α} {after : List (Block α)} (hsplit : bs = b :: after) (hb : b.hasOffsets = true)
    (h : List.Forall₂ Block.ShiftsTo bs bs') (hmarked : ∀ b ∈ bs'.head?, b.modified = true)
    (hback : List.Forall₂ Block.ReadBack bs' qs) (hbs : ReadInTurn {} c bs) :
    c.ended = false ∧ (ReadInTurn {} ⟨.rapid, false, c.hidden, false⟩ qs →
      List.Forall₂ (fun b q => (b.runUnder .rapid).LooksLike q) bs' qs) := by
  have hvisible := visible_of_shiftsTo hstops h
  obtain ⟨hbs', -⟩ := hbs.shiftsTo h
  subst hsplit
  obtain ⟨b', back, hshifted, -, rfl⟩ := List.forall₂_cons_left_iff.mp h
  obtain ⟨q, qback, hq, hqback, rfl⟩ := List.forall₂_cons_left_iff.mp hback
  have hm : b'.modified = true := hmarked b' rfl
  obtain ⟨hread, hrest⟩ := hbs'
  simp only [Block.hasOffsets, Block.mayShift, Bool.and_eq_true, Bool.not_eq_true'] at hb
  have hended : c.ended = false := by rw [← hread.ended, hshifted.edit.afterEnd, hb.1.1.2]
  refine ⟨hended, fun hqs => ?_⟩
  obtain ⟨hqread, hqrest⟩ := hqs
  have habsolute : b'.absolute = false := hshifted.edit.absolute.trans hb.1.2
  obtain ⟨hlooks, hstanding⟩ := hq.looksLike hread hqread (.inr ⟨hm, rfl⟩) (.inr habsolute.symm) rfl hended.symm
    (hvisible b' (by simp))
  exact .cons hlooks (looksLike_of_readBack hqback hrest (hstanding ▸ hqrest) fun c hc => hvisible c (by simp [hc])).1

end

/-- The move that has been added positions the tool without lifting it. If it selects relative distances and stands
before the end of the program, it leaves them, with its motion, to the lines after it. -/
theorem Block.ReadBack.offsetMove {slot : OffsetSlot} {feed spindle : α} {delta : Point α} {pending : Pending}
    {q : Block α} (h : ((offsetMove slot "(offset move)" feed spindle).shiftLine delta pending).2.ReadBack q)
    {c : Standing} (hq : q.ReadIn {} c) :
    q.isPositioning = true ∧ q.isRetract = false ∧
      (slot.selectsRelative = true → c.ended = false → q.standing = ⟨.rapid, false, c.hidden, false⟩) := by
  obtain ⟨hmotion, -, -, -, hz, -, -, hend, -, -, hmodified⟩ := offsetMove_modes isSilent_default slot feed spindle
  obtain ⟨hx, hy, -⟩ := offsetMove_xy isSilent_default slot feed spindle
  have htext := text_offsetMove slot "(offset move)" feed spindle
  have hedit := ((PartProgram.offsetMove slot "(offset move)" feed spindle).changesTo_shiftLine delta pending).edit
  have hgrows := (PartProgram.offsetMove slot "(offset move)" feed spindle).growsTo_shiftLine delta pending
  have hwords := isSilent_default slot
  have hunmarked : Markers.onLine ({} : Markers).hideStart
        ((if slot.selectsRelative then "G91 G0 X0 Y0 " else "G0 X0 Y0 ") ++ "(offset move)") = false ∧
      Markers.onLine ({} : Markers).hideStop
        ((if slot.selectsRelative then "G91 G0 X0 Y0 " else "G0 X0 Y0 ") ++ "(offset move)") = false := by
    cases slot.selectsRelative <;> decide +kernel
  generalize PartProgram.offsetMove slot "(offset move)" feed spindle = move at *
  have hqmotion : q.motion = .rapid := by
    rw [hq.motion, h.motion, if_pos (hedit.modified hmodified), hgrows.motion, hmotion]
    rfl
  have hqx : q.x.isSome = true := (h.axes .x).trans (hgrows.x (by rw [hx]; rfl))
  have hqy : q.y.isSome = true := (h.axes .y).trans (hgrows.y (by rw [hy]; rfl))
  have hqz : q.z.isSome = false := (h.axes .z).trans (hgrows.z.trans (by rw [hz]; rfl))
  refine ⟨by simp [isPositioning, hqmotion, hqx, hqy], by simp [isRetract, hqz], fun hselects hended => ?_⟩
  have hqabsolute : q.absolute = false := by
    rw [hq.absolute, h.distance, hedit.text, htext, hwords, (latest_words slot).2.1, hselects]
    rfl
  have hqhidden : q.hidden = c.hidden := by
    rw [← htext, ← hedit.text] at hunmarked
    rw [hq.hidden, h.hides fun _ => ⟨hunmarked.1, fun hstop => absurd hstop (by simp [hunmarked.2])⟩, Markers.hides,
      hunmarked.1, hunmarked.2]
    rfl
  have hqend : q.programEnd = false := by rw [h.programEnd, hedit.programEnd, hend]
  rw [standing, hqmotion, hqabsolute, hqhidden, hq.ended, hended, hqend]
  rfl

/-- In the text of a shifted program there is a slot again exactly if another move has to be added. -/
theorem ShiftsLines.isSome_offsetSlot {delta : Point α} {bs bs' qs : List (Block α)} (h : ShiftsLines delta bs bs')
    (hstops : ∀ b ∈ bs, b.isEditable = true → b.hasCoordinates = true →
      Markers.InComment ({} : Markers).hideStop b.text)
    (hback : List.Forall₂ Block.ReadBack bs' qs) (hbs : ReadInTurn {} .start bs) (hqs : ReadInTurn {} .start qs) :
    (offsetSlot qs).isSome = movesAgain bs := by
  cases h with
  | unmoved hslot h =>
      obtain ⟨hgrows, -⟩ := growsTo_of_readBack hstops h hback hbs hqs
      rw [offsetSlot_eq_none_of_growsTo hgrows hslot, movesAgain, hslot]
      rfl
  | @moved slot front back hslot feed spindle pending hfront hbehind hlooks hmarked =>
      obtain ⟨qfront, rest, rfl, hqfront, hrest⟩ := exists_append_of_forall₂ hback
      obtain ⟨move, qback, hmove, hqback, rfl⟩ := List.forall₂_cons_left_iff.mp hrest
      rw [← List.take_append_drop slot.line bs, readInTurn_append] at hbs
      rw [readInTurn_append] at hqs
      obtain ⟨hbsfront, hbsback⟩ := hbs
      obtain ⟨hqsfront, hmoveread, hqsback⟩ := hqs
      obtain ⟨hgrows, hafter⟩ := growsTo_of_readBack (fun b hb => hstops b (List.mem_of_mem_take hb)) hfront hqfront
        hbsfront hqsfront
      rw [hafter] at hmoveread
      obtain ⟨hpositioning, hidle, hstanding⟩ := hmove.offsetMove hmoveread
      have hfrontRetract : ∀ {bs qs : List (Block α)}, List.Forall₂ Block.GrowsTo bs qs →
          (∀ b ∈ bs, b.isRetract = false) → ∀ q ∈ qs, q.isRetract = false := fun h =>
        forall_mem_of_forall₂ (fun _ _ hb hretract => hb.isRetract.trans hretract) h
      rcases cases_of_offsetSlot hslot with ⟨hselects, before, b, htake, hbefore, hb⟩ | ⟨hselects, hnone, b, after, hdrop, hb⟩
      case inl =>
        -- the move follows the retract again
        rw [htake] at hgrows
        obtain ⟨qbefore, last, rfl, hqbefore, hlast⟩ := exists_append_of_forall₂ hgrows
        obtain ⟨q, more, hq, hmore, rfl⟩ := List.forall₂_cons_left_iff.mp hlast
        obtain rfl := List.forall₂_nil_left_iff.mp hmore
        rw [List.append_assoc, List.singleton_append,
          offsetSlot_of_isPositioning (hfrontRetract hqbefore hbefore) (hq.isRetract.trans hb) hpositioning, movesAgain,
          hslot]
        simp [hselects]
      case inr =>
        -- the search stops at the same line again, unless it finds a retract behind the move
        obtain ⟨hended, hbehindLooks⟩ := looksLike_of_marked (fun b hb => hstops b (List.mem_of_mem_drop hb)) hdrop hb
          hbehind (hmarked hselects) hqback hbsback
        have hqlooks : List.Forall₂ Block.LooksLike ((bs.drop slot.line).map (Block.runUnder .rapid)) qback := by
          rw [List.forall₂_map_left_iff]
          refine (forall₂_comp hlooks (hbehindLooks (hstanding hselects hended ▸ hqsback))).imp ?_
          rintro b q ⟨b', hb, hq⟩
          exact (hb.runUnder .rapid).trans hq
        have hqidle : ∀ q ∈ qfront ++ [move], q.isRetract = false := by
          intro q hq
          rcases List.mem_append.mp hq with hq | hq
          · exact hfrontRetract hgrows (fun b hb => hnone b (List.mem_of_mem_take hb)) q hq
          · exact List.mem_singleton.mp hq ▸ hidle
        have hqoffsets : qback.any Block.hasOffsets = true := by
          rw [hdrop, List.map_cons] at hqlooks
          obtain ⟨q, rest, hq, -, rfl⟩ := List.forall₂_cons_left_iff.mp hqlooks
          rw [List.any_cons, hq.1.hasOffsets]
          exact Bool.or_eq_true_iff.mpr (.inl hb)
        rw [List.append_cons, isSome_offsetSlot_append hqidle hqoffsets, positionsLifted_eq hqlooks, movesAgain, hslot,
          Option.any_some, hselects, Bool.true_and]

namespace Program

variable {settings : Settings α} (hmarkers : settings.markers = {}) (machine : Machine α)

include hmarkers

omit [IsStrictOrderedRing α] in
theorem readable_ofLines {lines : List String} (hlines : ∀ line ∈ lines, '\n' ∉ line.toList)
    (hcalls : ∀ b ∈ (ofLines lines settings machine).lines, b.call = none) :
    ∀ b ∈ (ofLines lines settings machine).lines, b.Readable := by
  intro b hb
  have hunmodified := modified_place (modified_asRead lines settings) machine b hb
  refine ⟨fromText_ofLines lines settings machine b hb, (unbroken_ofLines hlines settings machine b hb).text, ?_,
    fun hm => ?_, hcalls b hb⟩
  · rw [footer_of_mem_lines hb, hmarkers]
  · rw [hunmodified] at hm
    simp at hm

/-- Lines that are written for readable blocks are read back one by one. -/
theorem readBack_ofLines {bs : List (Block α)} (hbs : ∀ b ∈ bs, b.Readable) {lines : List String}
    (h : List.Forall₂ (fun b line => ∃ e, line = b.reread settings.format e) bs lines) :
    List.Forall₂ Block.ReadBack bs (ofLines lines settings machine).lines ∧
      ReadInTurn {} .start (ofLines lines settings machine).lines := by
  have hread : ∀ b q : Block α, b.Readable → q ∈ (ofLines lines settings machine).lines →
      (∃ e, q.text = b.reread settings.format e) → b.ReadBack q ∧ q.call = none := by
    rintro b q hb hq ⟨e, htext⟩
    have hfrom : q.FromText := fromText_ofLines lines settings machine q hq
    have hfooter : q.footer = Markers.onLine settings.markers.setupFooter q.text := footer_of_mem_lines hq
    rw [hmarkers] at hfooter
    refine ⟨Block.readBack hb.fromText hb.footer hb.unfooted hfrom
      (modified_place (modified_asRead lines settings) machine q hq) hfooter htext, ?_⟩
    rw [hfrom.call, htext, Block.codes_reread settings.format e hb.fromText, ← hb.fromText.call, hb.call]
  have hpairs : List.Forall₂ (fun b q => b.ReadBack q ∧ q.call = none) bs (ofLines lines settings machine).lines := by
    rw [← texts_ofLines lines settings machine, List.forall₂_map_right_iff] at h
    have hleft := (List.forall₂_and_left bs _).mpr ⟨hbs, h⟩
    have hboth := (List.forall₂_and_left (ofLines lines settings machine).lines _).mpr ⟨fun _ => id, hleft.flip⟩
    exact hboth.flip.imp fun b q hq => hread b q hq.2.1 hq.1 hq.2.2
  have hcalls : ∀ b ∈ (ofLines lines settings machine).lines, b.call = none :=
    forall_mem_of_forall₂ (fun _ _ hq _ => hq.2) hpairs fun _ _ => trivial
  have hinTurn : ReadInTurn settings.markers .start (ofLines lines settings machine).lines :=
    readInTurn_ofLines (codes_of_call_eq_none hcalls)
  rw [hmarkers] at hinTurn
  exact ⟨hpairs.imp fun _ _ hq => hq.1, hinTurn⟩

/-- A program without calls as it is shifted. -/
theorem shiftsLines_ofLines (lines : List String) (delta : Point α) :
    ShiftsLines delta (ofLines lines settings machine).lines
      ((ofLines lines settings machine).shift delta settings.markers.offsetMoveComment).lines := by
  have hcomment : settings.markers.offsetMoveComment = "(offset move)" := by rw [hmarkers]
  rw [hcomment]
  exact shiftsLines_shift (modified_place (modified_asRead lines settings) machine)
    (fun b hb => containsRelative_of_mem_executed (lines_subset_executed _ hb)) delta

/-- The lines of a shifted program are read back and searched once more. -/
theorem isSome_offsetSlot_ofLines {lines lines' : List String} (hlines : ∀ line ∈ lines, '\n' ∉ line.toList)
    (hcalls : ∀ b ∈ (ofLines lines settings machine).lines, b.call = none)
    (hstops : ∀ b ∈ (ofLines lines settings machine).lines, b.isEditable = true → b.hasCoordinates = true →
      Markers.InComment settings.markers.hideStop b.text) {delta : Point α}
    (h : List.Forall₂ (fun b line => ∃ e, line = b.reread settings.format e)
      ((ofLines lines settings machine).shift delta settings.markers.offsetMoveComment).lines lines') :
    (offsetSlot (ofLines lines' settings machine).lines).isSome = movesAgain (ofLines lines settings machine).lines := by
  have hshift := shiftsLines_ofLines hmarkers machine lines delta
  obtain ⟨hback, hq⟩ := readBack_ofLines hmarkers machine
    (hshift.readable (readable_ofLines hmarkers machine hlines hcalls)) h
  have hp : ReadInTurn settings.markers .start (ofLines lines settings machine).lines :=
    readInTurn_ofLines (codes_of_call_eq_none hcalls)
  rw [hmarkers] at hp hstops
  exact hshift.isSome_offsetSlot hstops hback hp hq

end Program

namespace Session

omit [IsStrictOrderedRing α] in
/-- The text of an offset program. -/
theorem offset_load (s : Session α) (text : String) (anchor : Anchor) (extra : Point α) :
    let p := Program.ofLines (Text.lines text) s.settings s.machine
    ((s.load text).edit (.offset anchor extra)).2 = listing s.settings.format
      (p.shift (anchor.point p.extent + extra) s.settings.markers.offsetMoveComment).lines := by
  have hempty : ∀ p : Program α, p.lines = [] →
      ((Edit.offset anchor extra : Edit α).change p s.settings).lines = [] := by
    intro p hnil
    have hsame : p.withOffsetMove s.settings.markers.offsetMoveComment = p := by
      rw [Program.withOffsetMove, hnil]
      cases p.containsRelative <;> rfl
    rw [Edit.change, Program.shift, Program.lines_shiftLines, hsame, hnil]
    rfl
  rw [edit_eq]
  exact Edit.apply_snd (by simp) (hempty _) s.machine

section

variable (s : Session α) (hmarkers : s.settings.markers = {}) (text : String) (anchor : Anchor) (extra : Point α)

include hmarkers

omit [IsStrictOrderedRing α] in
/-- The text of an offset program has its lines. -/
theorem forall₂_lines_offset_load :
    let p := Program.ofLines (Text.lines text) s.settings s.machine
    List.Forall₂ (fun b line => ∃ e, line = b.reread s.settings.format e)
      (p.shift (anchor.point p.extent + extra) s.settings.markers.offsetMoveComment).lines
      (Text.lines ((s.load text).edit (.offset anchor extra)).2) := by
  intro p
  have hlines : ∀ line ∈ Text.lines text, '\n' ∉ line.toList := fun _ => Text.not_mem_of_mem_lines
  have hcomment : '\n' ∉ s.settings.markers.offsetMoveComment.toList := by
    rw [hmarkers]
    decide
  rw [offset_load]
  exact forall₂_lines_listing (Program.unbroken_change (Program.unbroken_ofLines hlines s.settings s.machine) hcomment
    (.offset anchor extra)) s.settings.format

/-- An offset adds a line exactly if there is a slot for it. -/
theorem length_lines_offset_load :
    (Text.lines ((s.load text).edit (.offset anchor extra)).2).length = (Text.lines text).length +
      if (offsetSlot (Program.ofLines (Text.lines text) s.settings s.machine).lines).isSome then 1 else 0 := by
  have hlength := congrArg List.length (Program.texts_ofLines (Text.lines text) s.settings s.machine)
  rw [List.length_map] at hlength
  rw [← (s.forall₂_lines_offset_load hmarkers text anchor extra).length_eq,
    (Program.shiftsLines_ofLines hmarkers s.machine (Text.lines text) _).length_eq, hlength]

end

/-- A program without calls is offset twice. The second text has one line more than the first one exactly if the first
offset has added its move in front of coordinates and the lines behind it do not lift the tool and position it before
they cut. -/
theorem offset_offset_lines (s : Session α) (hmarkers : s.settings.markers = {}) (text : String)
    (hcalls : ∀ b ∈ (s.load text).program.lines, b.call = none)
    (hstops : ∀ b ∈ (s.load text).program.lines, b.isEditable = true → b.hasCoordinates = true →
      Markers.InComment s.settings.markers.hideStop b.text)
    (anchor anchor' : Anchor) (extra extra' : Point α) :
    let p := (s.load text).program
    let first := (s.load text).edit (.offset anchor extra)
    let second := first.1.edit (.offset anchor' extra')
    (Text.lines second.2).length = (Text.lines first.2).length + if movesAgain p.lines then 1 else 0 := by
  intro p first second
  have hlines : ∀ line ∈ Text.lines text, '\n' ∉ line.toList := fun _ => Text.not_mem_of_mem_lines
  have hslot := Program.isSome_offsetSlot_ofLines hmarkers s.machine hlines hcalls hstops
    (s.forall₂_lines_offset_load hmarkers text anchor extra)
  have hsecond := s.length_lines_offset_load hmarkers first.2 anchor' extra'
  have hagain : first.1 = s.load first.2 := s.edit_load_fst text (.offset anchor extra)
  simp only [second]
  rw [hagain, hsecond, hslot]
  rfl

/-- In front of a relative cut, each offset adds a move. With a retract, or with lines that lift and position the tool
when they run rapidly behind the move, only the first one does. -/
theorem offset_offset_of_relative :
    let _ := PlaneFunctions.axial
    let s : Session ℚ := .new .default .default
    let cut := (s.load "G91 G1 X10 F100\n").edit (.offset .bottomLeft ⟨2, 3⟩)
    let lifted := (s.load "G91\nG0 Z5\nG1 X10 F100\n").edit (.offset .bottomLeft ⟨2, 3⟩)
    let motionless := (s.load "G91 X1\nZ5\nX2 Y2\n").edit (.offset .bottomLeft ⟨2, 3⟩)
    let IsPlain (text : String) : Prop := (∀ b ∈ (s.load text).program.lines, b.call = none) ∧
      ∀ b ∈ (s.load text).program.lines, b.isEditable = true → b.hasCoordinates = true →
        Markers.InComment s.settings.markers.hideStop b.text
    (s.settings.markers = {} ∧ IsPlain "G91 G1 X10 F100\n" ∧ IsPlain "G91\nG0 Z5\nG1 X10 F100\n" ∧
      IsPlain "G91 X1\nZ5\nX2 Y2\n") ∧
      cut.2 = "G0 G91 X-2 Y-3 F100 (offset move)\nG1 G91 X10\n" ∧
      (Text.lines (cut.1.edit (.offset .bottomLeft ⟨0, 0⟩)).2).length = (Text.lines cut.2).length + 1 ∧
      (Text.lines (lifted.1.edit (.offset .center ⟨1, 1⟩)).2).length = (Text.lines lifted.2).length ∧
      (Text.lines (motionless.1.edit (.offset .center ⟨1, 1⟩)).2).length = (Text.lines motionless.2).length := by
  intro _ s cut lifted motionless IsPlain
  have hmarkers : s.settings.markers = {} := rfl
  have hcut : IsPlain "G91 G1 X10 F100\n" := by decide +kernel
  have hlifted : IsPlain "G91\nG0 Z5\nG1 X10 F100\n" := by decide +kernel
  have hmotionless : IsPlain "G91 X1\nZ5\nX2 Y2\n" := by decide +kernel
  -- a cut and no retract, a retract, and lines without a motion, which no general case covers
  have hagain : movesAgain (s.load "G91 G1 X10 F100\n").program.lines = true := by
    rw [movesAgain_of_motion (by decide +kernel) (by decide +kernel)]
    decide +kernel
  have honce : movesAgain (s.load "G91\nG0 Z5\nG1 X10 F100\n").program.lines = false :=
    movesAgain_of_any_isRetract (by decide +kernel)
  have hlift : movesAgain (s.load "G91 X1\nZ5\nX2 Y2\n").program.lines = false := by decide +kernel
  have hcutLines : (Text.lines (cut.1.edit (.offset .bottomLeft ⟨0, 0⟩)).2).length = (Text.lines cut.2).length +
      if movesAgain (s.load "G91 G1 X10 F100\n").program.lines then 1 else 0 :=
    offset_offset_lines s hmarkers _ hcut.1 hcut.2 .bottomLeft .bottomLeft ⟨2, 3⟩ ⟨0, 0⟩
  have hliftedLines : (Text.lines (lifted.1.edit (.offset .center ⟨1, 1⟩)).2).length = (Text.lines lifted.2).length +
      if movesAgain (s.load "G91\nG0 Z5\nG1 X10 F100\n").program.lines then 1 else 0 :=
    offset_offset_lines s hmarkers _ hlifted.1 hlifted.2 .bottomLeft .center ⟨2, 3⟩ ⟨1, 1⟩
  have hmotionlessLines : (Text.lines (motionless.1.edit (.offset .center ⟨1, 1⟩)).2).length =
      (Text.lines motionless.2).length + if movesAgain (s.load "G91 X1\nZ5\nX2 Y2\n").program.lines then 1 else 0 :=
    offset_offset_lines s hmarkers _ hmotionless.1 hmotionless.2 .bottomLeft .center ⟨2, 3⟩ ⟨1, 1⟩
  rw [hagain, if_pos rfl] at hcutLines
  rw [honce, if_neg Bool.false_ne_true, Nat.add_zero] at hliftedLines
  rw [hlift, if_neg Bool.false_ne_true, Nat.add_zero] at hmotionlessLines
  exact ⟨⟨hmarkers, hcut, hlifted, hmotionless⟩, by decide +kernel, hcutLines, hliftedLines, hmotionlessLines⟩

/-- Two moves have been added in front of the cut, one for each offset. -/
theorem offset_offset_adds_move :
    let s : Session Float := .new .default .default
    let first := (s.load "G91 G1 X10 F100\n").edit (.offset .bottomLeft ⟨2, 3⟩)
    let second := first.1.edit (.offset .bottomLeft ⟨0, 0⟩)
    s.settings.markers = {} ∧ (∀ b ∈ (s.load "G91 G1 X10 F100\n").program.lines, b.call = none) ∧
      first.2 = "G0 G91 X-2 Y-3 F100 (offset move)\nG1 G91 X10\n" ∧
      second.2 = "G0 G91 X2 Y3 F100 (offset move)\nG0 G91 X-2 Y-3 (offset move)\nG1 G91 X10\n" ∧
      (Text.lines second.2).length ≠ (Text.lines first.2).length := by
  intro s first second
  have hfirst : first.2 = "G0 G91 X-2 Y-3 F100 (offset move)\nG1 G91 X10\n" := by decide +kernel
  have hsecond : second.2 = "G0 G91 X2 Y3 F100 (offset move)\nG0 G91 X-2 Y-3 (offset move)\nG1 G91 X10\n" := by
    decide +kernel
  exact ⟨rfl, by decide +kernel, hfirst, hsecond, by rw [hfirst, hsecond]; decide +kernel⟩

/-- A stop marker that is part of a line's code is spelled anew with its words and stops nothing when it is read again.
The retract behind it is then hidden, and the second offset adds the move that the first one did not need. -/
example :
    let _ := PlaneFunctions.axial
    let s : Session ℚ := .new .default .default
    let text := "G91 G1 X1 F100
%START_HIDECODE
G90 G1 X2 %STOP_HIDECODE
G91 G0 Z5
X1 Y1
"
    let first := (s.load text).edit (.offset .bottomLeft ⟨2, 3⟩)
    (Text.lines first.2).length = 5 ∧
      (Text.lines (first.1.edit (.offset .bottomLeft ⟨0, 0⟩)).2).length = 6 := by
  decide +kernel

end Session

end PartProgram
