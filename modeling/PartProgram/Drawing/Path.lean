import PartProgram.Plane.Point

/-!
Drawings. A drawing is told stroke by stroke; it groups the strokes into contours.
-/

namespace PartProgram

/-- What a contour belongs to. -/
inductive Layer where
  | penUp
  | penDown
  | machineLimit
  | toolTable
  | heightMap
  deriving DecidableEq, Repr

inductive MarkerKind where
  /-- A plunge and a retract at one place. -/
  | drill
  /-- The first move of an inlined subroutine body. -/
  | subroutineEntry
  deriving DecidableEq, Repr

inductive Segment (α : Type) where
  | moveTo (destination : Point α)
  | lineTo (destination : Point α)
  | arcTo (center : Point α) (radius startAngle sweep : α)

structure Contour (α : Type) where
  layer : Layer
  segments : List (Segment α)

structure Marker (α : Type) where
  position : Point α
  kind : MarkerKind
  size : α

structure Label (α : Type) where
  position : Point α
  text : String

/-- One thing told to a drawing. -/
inductive Stroke (α : Type) where
  /-- Starts a contour that is not connected to the one before. -/
  | start (layer : Layer)
  | draw (segment : Segment α)
  | mark (marker : Marker α)
  | write (label : Label α)

structure Drawing (α : Type) where
  contours : List (Contour α)
  markers : List (Marker α)
  labels : List (Label α)

/-- A drawing in the making. The last contour is kept apart, with its segments in an array. -/
structure Canvas (α : Type) where
  finished : Array (Contour α) := #[]
  current : Option (Layer × Array (Segment α)) := none
  markers : Array (Marker α) := #[]
  labels : Array (Label α) := #[]

namespace Canvas

variable {α : Type}

/-- The contours so far. -/
def contours (c : Canvas α) : Array (Contour α) :=
  match c.current with
  | none => c.finished
  | some (layer, segments) => c.finished.push ⟨layer, segments.toList⟩

/-- Adds a stroke. A segment that comes before any contour opens one for the lifted pen. -/
def add (c : Canvas α) : Stroke α → Canvas α
  | .start layer => { c with finished := c.contours, current := some (layer, #[]) }
  | .draw segment =>
    let (layer, segments) := c.current.getD (.penUp, #[])
    { c with current := some (layer, segments.push segment) }
  | .mark marker => { c with markers := c.markers.push marker }
  | .write label => { c with labels := c.labels.push label }

def drawing (c : Canvas α) : Drawing α := ⟨c.contours.toList, c.markers.toList, c.labels.toList⟩

end Canvas

namespace Drawing

variable {α : Type}

/-- The drawing that a sequence of strokes makes. -/
def ofStrokes (strokes : List (Stroke α)) : Drawing α :=
  (strokes.foldl Canvas.add {}).drawing

/-- The contours of one layer, in order. -/
def onLayer (d : Drawing α) (layer : Layer) : List (Contour α) :=
  d.contours.filter (·.layer == layer)

end Drawing

end PartProgram
