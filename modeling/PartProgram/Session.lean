import PartProgram.Drawing.Overlay
import PartProgram.Drawing.Trace
import PartProgram.Edit.Basic
import PartProgram.Program.Reading

/-!
A session works on one program. Every edit gives a text, and the session goes on with that text read
anew.
-/

namespace PartProgram

structure Session (α : Type) where
  settings : Settings α
  machine : Machine α
  program : Program α
  /-- The coordinates of an earlier program, in machine coordinates. -/
  landmark : Option (Coordinates α)
  selectedFigure : Option Nat

variable {α : Type} [Scalar α]

namespace Session

def new (settings : Settings α) (machine : Machine α) : Session α :=
  ⟨settings, machine, .empty, none, none⟩

/-- Places the loaded program on another machine. -/
def setMachine (s : Session α) (machine : Machine α) : Session α :=
  { s with machine, program := s.program.place machine }

/-- Loads a program. -/
def load (s : Session α) (text : String) : Session α :=
  { s with program := .read text s.settings s.machine, selectedFigure := none }

/-- The text of the loaded program. -/
def text (s : Session α) : String := s.program.text s.settings.format

/-- Carries out an edit and loads its result. -/
def edit (s : Session α) (edit : Edit α) : Session α × String :=
  let (_, text) := edit.apply s.program s.settings s.machine
  (s.load text, text)

/-- Replaces arcs and long cuts by short straight ones and loads the result. A program without lines
is left alone. -/
def linearize (s : Session α) : Session α × String :=
  if s.program.isEmpty then (s, "")
  else
    let text := linearListing s.settings.format s.settings.maxStep s.program.lines
    (s.load text, text)

/-- Keeps the coordinates of the loaded program as a landmark. In machine coordinates they stay
where they are when the work offset changes. -/
def setLandmark (s : Session α) : Session α :=
  { s with landmark := some (s.program.coordinates.moved s.machine.workOffset.xy) }

def clearLandmark (s : Session α) : Session α := { s with landmark := none }

/-- The landmark's nearest position, in work coordinates. -/
def nearestLandmark (s : Session α) (point : Point α) : Option (Hit α) :=
  let offset := s.machine.workOffset
  s.landmark.bind fun cs => (cs.moved ⟨-offset.x, -offset.y⟩).nearest point .landmark

/-- The position nearest to a point, of the program or of the landmark; a tie goes to the program. A
hit on the program selects its figure, anything else selects none. -/
def findNearest (s : Session α) (point : Point α) : Session α × Option (Hit α) :=
  let own := s.program.coordinates.nearest point .program
  let hit := match own, s.nearestLandmark point with
    | some a, some b => if b.distance < a.distance then some b else some a
    | a, b => a.or b
  let selected := (hit.filter (·.source == .program)).bind (·.figure)
  ({ s with selectedFigure := selected }, hit)

/-- The path of the program. -/
def trace (s : Session α) : List (Stroke α) := s.program.strokes s.machine.unit none

/-- The path of one figure. -/
def traceFigure (s : Session α) (figure : Nat) : List (Stroke α) :=
  s.program.strokes s.machine.unit (some figure)

/-- The machine, the grid of a height map, and the path. -/
def render (s : Session α) (map : Option (HeightMap α)) : List (Stroke α) :=
  s.machine.limitStrokes ++ s.machine.toolStrokes ++ map.elim [] (·.strokes) ++ s.trace

/-- What a viewer shows. -/
def view (s : Session α) : Point α × Point α := s.program.extent.view s.machine.unit

end Session

end PartProgram
