import PartProgram.Number.Floating
import PartProgram.Proofs.Program.Texts
import PartProgram.Query

/-! # Sessions and their texts

Whatever is done in a session, its program is the one that is read from its text, and the text that
an operation gives is the text of the session.
-/

namespace PartProgram

open Text (IsLine)

/-- What can be asked of a session. -/
inductive Operation (α : Type) where
  | load (text : String)
  | setMachine (machine : Machine α)
  | edit (edit : Edit α)
  | linearize
  | setLandmark
  | clearLandmark
  | findNearest (point : Point α)
  | text
  | info
  | figureLines (figure : ℕ)
  | locate (line : ℕ)
  | trace (figure : Option ℕ)
  | render (map : Option (HeightMap α))

/-- What a session answers. -/
inductive Reply (α : Type) where
  | done
  | text (text : String)
  | hit (hit : Option (Hit α))
  | info (info : ProgramInfo α)
  | figureLines (lines : Option (ℕ × ℕ))
  | position (position : Option (Coordinate α))
  | strokes (strokes : List (Stroke α))

variable {α : Type} [Scalar α]

namespace Session

/-- Carries out an operation. -/
def perform (s : Session α) : Operation α → Session α × Reply α
  | .load text => (s.load text, .done)
  | .setMachine machine => (s.setMachine machine, .done)
  | .edit edit => let (s, text) := s.edit edit; (s, .text text)
  | .linearize => let (s, text) := s.linearize; (s, .text text)
  | .setLandmark => (s.setLandmark, .done)
  | .clearLandmark => (s.clearLandmark, .done)
  | .findNearest point => let (s, hit) := s.findNearest point; (s, .hit hit)
  | .text => (s, .text s.text)
  | .info => (s, .info s.info)
  | .figureLines figure => (s, .figureLines (s.program.coordinates.figureLines? figure))
  | .locate line => (s, .position (s.program.coordinates.ofLine? line))
  | .trace figure => (s, .strokes (figure.elim s.trace s.traceFigure))
  | .render map => (s, .strokes (s.render map))

/-- The sessions that a sequence of operations goes through, with their answers. -/
def history (s : Session α) (ops : List (Operation α)) : List (Session α × Reply α) :=
  (pass (fun s op => ((s.perform op).1, s.perform op)) s ops).2

/-- A session goes on with the text of an edit. -/
theorem edit_eq (s : Session α) (edit : Edit α) : s.edit edit =
    (s.load (edit.apply s.program s.settings s.machine).2, (edit.apply s.program s.settings s.machine).2) := by
  simp only [Session.edit]

theorem edit_load_fst (s : Session α) (text : String) (edit : Edit α) :
    ((s.load text).edit edit).1 = s.load ((s.load text).edit edit).2 := by
  rw [edit_eq]
  rfl

theorem settings_load (s : Session α) (text : String) : (s.load text).settings = s.settings := rfl

/-- The program of the session has been read from single lines. -/
def IsFresh (s : Session α) : Prop :=
  ∃ lines, (∀ line ∈ lines, IsLine line) ∧ s.program = .ofLines lines s.settings s.machine

namespace IsFresh

variable {s : Session α}

theorem new (settings : Settings α) (machine : Machine α) : (Session.new settings machine).IsFresh :=
  ⟨[], by simp, rfl⟩

/-- A program read from single lines is read again from its own text. -/
theorem program_eq (h : s.IsFresh) : s.program = .read s.text s.settings s.machine := by
  obtain ⟨lines, hlines, hprogram⟩ := h
  have htext : s.text = Text.ofLines lines := by
    rw [Session.text, hprogram, Program.text_ofLines]
  rw [Program.read, htext, Text.lines_ofLines_of_isLine hlines, hprogram]

theorem singleLines (h : s.IsFresh) : s.program.SingleLines := by
  obtain ⟨lines, hlines, hprogram⟩ := h
  exact hprogram ▸ Program.singleLines_ofLines hlines s.settings s.machine

theorem load {text : String} (htext : Text.ReturnsEndLines text) : (s.load text).IsFresh :=
  ⟨Text.lines text, Text.isLine_of_mem_lines htext, rfl⟩

/-- A text made of single lines is loaded as it is. -/
theorem load_ofLines {lines : List String} (h : ∀ line ∈ lines, IsLine line) :
    (s.load (Text.ofLines lines)).IsFresh ∧ (s.load (Text.ofLines lines)).text = Text.ofLines lines := by
  have hlines := Text.lines_ofLines_of_isLine h
  refine ⟨⟨lines, h, ?_⟩, ?_⟩
  · rw [Session.load, Program.read, hlines]
  · rw [Session.load, Session.text, Program.read, hlines, Program.text_ofLines]

/-- Placing on another machine cannot be told from reading for that machine. -/
theorem setMachine (h : s.IsFresh) (machine : Machine α) : (s.setMachine machine).IsFresh := by
  obtain ⟨lines, hlines, hprogram⟩ := h
  refine ⟨lines, hlines, ?_⟩
  have hplace := Program.place_ofLines lines s.settings s.machine machine
  rw [← hprogram] at hplace
  exact hplace

theorem edit (h : s.IsFresh) (hcomment : IsLine s.settings.markers.offsetMoveComment) (edit : Edit α) :
    (s.edit edit).1.IsFresh ∧ (s.edit edit).1.text = (s.edit edit).2 := by
  obtain ⟨lines, hlines, htext⟩ := Program.lines_apply h.singleLines hcomment edit s.machine
  simp only [Session.edit, htext]
  exact load_ofLines hlines

theorem linearize (h : s.IsFresh) :
    s.linearize.1.IsFresh ∧ s.linearize.1.text = s.linearize.2 := by
  rw [Session.linearize]
  split
  · rename_i hempty
    refine ⟨h, ?_⟩
    have hnil : s.program.lines = [] := by
      simpa [Program.isEmpty, Program.lines] using hempty
    rw [Session.text, Program.text, hnil]
    rfl
  · have hlines : ∀ b ∈ s.program.lines, b.SingleLine := fun b hb =>
      h.singleLines b (Program.lines_subset_executed _ hb)
    obtain ⟨lines, hlines, htext⟩ := Program.lines_listing (fun b hb => by
      obtain ⟨b₀, hb₀, hb⟩ := List.mem_flatMap.mp hb
      exact (hlines b₀ hb₀).linearized s.settings.maxStep (some s.settings.maxStep)
        s.settings.format.decimalPlaces b hb) s.settings.format
    simp only [linearListing, htext]
    exact load_ofLines hlines

/-- One operation keeps the program what its text says, and if it gives a text, it gives that. -/
theorem perform (h : s.IsFresh) (hcomment : IsLine s.settings.markers.offsetMoveComment)
    {op : Operation α} (hload : ∀ text, op = .load text → Text.ReturnsEndLines text) :
    (s.perform op).1.IsFresh ∧ (s.perform op).1.settings = s.settings ∧
      ∀ text, (s.perform op).2 = .text text → (s.perform op).1.text = text := by
  cases op with
  | load text => exact ⟨load (hload text rfl), rfl, by simp [Session.perform]⟩
  | setMachine machine => exact ⟨h.setMachine machine, rfl, by simp [Session.perform]⟩
  | edit e =>
      obtain ⟨hfresh, htext⟩ := h.edit hcomment e
      exact ⟨hfresh, rfl, by simpa [Session.perform] using htext⟩
  | linearize =>
      obtain ⟨hfresh, htext⟩ := h.linearize
      refine ⟨hfresh, ?_, by simpa [Session.perform] using htext⟩
      change s.linearize.1.settings = s.settings
      rw [Session.linearize]
      by_cases hempty : s.program.isEmpty
      · rw [if_pos hempty]
      · rw [if_neg hempty]
        exact s.settings_load _
  | findNearest point => exact ⟨h, rfl, by simp [Session.perform]⟩
  | text => exact ⟨h, rfl, by simp [Session.perform]⟩
  | setLandmark | clearLandmark | info | figureLines | locate | trace | render =>
      exact ⟨h, rfl, by simp [Session.perform]⟩

theorem history (h : s.IsFresh) (hcomment : IsLine s.settings.markers.offsetMoveComment)
    {ops : List (Operation α)} (hloads : ∀ text, .load text ∈ ops → Text.ReturnsEndLines text) :
    ∀ r ∈ s.history ops, r.1.IsFresh ∧ r.1.settings = s.settings ∧
      ∀ text, r.2 = .text text → r.1.text = text := by
  induction ops generalizing s with
  | nil => simp [Session.history]
  | cons op ops ih =>
      obtain ⟨hfresh, hsettings, htext⟩ := h.perform hcomment
        fun text (hop : op = .load text) => hloads text (by simp [hop])
      have hrest := ih hfresh (hsettings ▸ hcomment) fun text hmem => hloads text (by simp [hmem])
      intro r hr
      rw [Session.history, pass_cons] at hr
      rcases List.mem_cons.mp hr with rfl | hr
      · exact ⟨hfresh, hsettings, htext⟩
      · obtain ⟨hf, hs, ht⟩ := hrest r hr
        exact ⟨hf, hs.trans hsettings, ht⟩

end IsFresh

/-- Whatever is done in a session, its program is the one that is read from its text for its machine,
and a text that an operation gives is the text of the session. -/
theorem history_eq_read (settings : Settings α) (machine : Machine α)
    (hcomment : IsLine settings.markers.offsetMoveComment) (ops : List (Operation α))
    (hloads : ∀ text, .load text ∈ ops → Text.ReturnsEndLines text) :
    ∀ r ∈ (Session.new settings machine).history ops,
      r.1.program = .read r.1.text settings r.1.machine ∧
        ∀ text, r.2 = .text text → r.1.text = text := by
  intro r hr
  obtain ⟨hfresh, hsettings, htext⟩ := (IsFresh.new settings machine).history hcomment hloads r hr
  have hsame : r.1.settings = settings := hsettings
  exact ⟨hsame ▸ hfresh.program_eq, htext⟩

/-- A program with carriage returns is loaded, placed on another machine, mirrored and cut up. -/
theorem history_of_edits :
    let settings : Settings Float := .default
    let machine : Machine Float := { Machine.default with workPosition := ⟨1, 2, 3⟩ }
    let ops : List (Operation Float) :=
      [.load "G90 G0 X1 Y1\r\nG1 X3 F60\r\nG91 X-1\r\n", .setMachine machine, .edit (.mirror .x),
        .linearize]
    IsLine settings.markers.offsetMoveComment ∧
      (∀ text, .load text ∈ ops → Text.ReturnsEndLines text) ∧
      ∀ r ∈ (Session.new settings .default).history ops,
        r.1.program = .read r.1.text settings r.1.machine ∧
          ∀ text, r.2 = .text text → r.1.text = text := by
  intro settings machine ops
  have hcomment : IsLine settings.markers.offsetMoveComment := by decide
  have hloads : ∀ text, .load text ∈ ops → Text.ReturnsEndLines text := by
    intro text htext
    obtain rfl : text = "G90 G0 X1 Y1\r\nG1 X3 F60\r\nG91 X-1\r\n" := by simpa [ops] using htext
    decide
  exact ⟨hcomment, hloads, history_eq_read settings .default hcomment ops hloads⟩

end Session

end PartProgram
