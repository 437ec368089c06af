import PartProgram.Program.Placing
import PartProgram.Program.Subroutine

/-!
Reading a whole program.
-/

namespace PartProgram

variable {α : Type} [Scalar α]

/-- What is carried from line to line while a program is read. -/
structure ProgramReader (α : Type) where
  reader : Reader α
  hidden : Bool
  /-- The program has ended on an earlier line. -/
  ended : Bool

/-- Reads a line of the program and inlines what it calls. After the end of the program nothing is
called any more. -/
def ProgramReader.readLine (source : Source) (r : ProgramReader α) (line : Nat × String) :
    ProgramReader α × Entry α :=
  let (number, text) := line
  let hidden := source.markers.hides r.hidden text
  let (modal, block) := Block.read number text r.reader.modal
  let block :=
    { block with
      hidden
      footer := Markers.onLine source.markers.setupFooter text
      afterEnd := r.ended }
  let reader := { r.reader with modal }
  let (reader, copies) := match block.call with
    | some call =>
      if r.ended then (reader, [])
      else source.inline (source.rules.maxDepth - 1) call number hidden reader
    | none => (reader, [])
  ({ reader, hidden, ended := r.ended || block.programEnd }, { line := block, copies })

namespace Program

/-- Reads a program from its lines and places it. -/
def ofLines (lines : List String) (settings : Settings α) (machine : Machine α) : Program α :=
  let source := Source.ofLines α lines settings.calls settings.markers
  let start : ProgramReader α := ⟨⟨Modal.initial, none⟩, false, false⟩
  let (last, entries) := pass (ProgramReader.readLine source) start
    (lines.mapIdx fun n line => (n, line))
  { (empty : Program α) with
    entries
    containsArcs := last.reader.modal.containsArc
    containsRelative := last.reader.modal.containsRelative }.place machine

/-- Reads a program from its text and places it. -/
def read (text : String) (settings : Settings α) (machine : Machine α) : Program α :=
  ofLines (Text.lines text) settings machine

end Program

end PartProgram
