import PartProgram.Failure
import PartProgram.Session

/-!
Questions about a loaded program.
-/

namespace PartProgram

/-- A summary of a program. -/
structure ProgramInfo (α : Type) where
  lines : Nat
  /-- Blocks in the order of execution, copies included. -/
  executed : Nat
  figures : Nat
  containsArcs : Bool
  containsRelative : Bool
  /-- Missing when nothing is drawn. -/
  extent : Option (Extent α)
  view : Point α × Point α

/-- The lines that a figure spans. -/
structure FigureLines where
  figure : Nat
  first : Nat
  last : Nat
  deriving DecidableEq, Repr

variable {α : Type} [Scalar α]

namespace Session

def info (s : Session α) : ProgramInfo α where
  lines := s.program.lines.length
  executed := s.program.executed.length
  figures := s.program.figures
  containsArcs := s.program.containsArcs
  containsRelative := s.program.containsRelative
  extent := if s.program.extent.isEmpty then none else some s.program.extent
  view := s.view

/-- Loads a program and searches it for the position nearest to a point. An earlier program, if
given, is loaded first and searched as a landmark. -/
def queryNearest (s : Session α) (text : String) (landmark : Option String) (point : Point α) :
    Session α × Except (Failure α) (Hit α) :=
  let s := match landmark with
    | some earlier => (s.load earlier).setLandmark
    | none => s
  let (s, hit) := (s.load text).findNearest point
  (s, match hit with
    | some hit => .ok hit
    | none => .error .noCoordinates)

def queryFigure (s : Session α) (figure : Nat) : Except (Failure α) FigureLines :=
  match s.program.coordinates.figureLines? figure with
  | some (first, last) => .ok ⟨figure, first, last⟩
  | none => .error (.noFigure figure)

def queryLine (s : Session α) (line : Nat) : Except (Failure α) (Coordinate α) :=
  match s.program.coordinates.ofLine? line with
  | some c => .ok c
  | none => .error (.noPosition line)

/-- The drawing of one figure, or of everything. -/
def queryTrace (s : Session α) (figure : Option Nat) (map : Option (HeightMap α)) :
    Except (Failure α) (Drawing α) :=
  match figure with
  | some n =>
    if n = 0 ∨ s.program.figures < n then .error (.noFigure n)
    else .ok (.ofStrokes (s.traceFigure n))
  | none => .ok (.ofStrokes (s.render map))

end Session

end PartProgram
