import PartProgram.Drawing.Path
import PartProgram.HeightMap
import PartProgram.Machine
import PartProgram.Plane.Extent

/-!
What is drawn besides the path: the travel of the machine, its tool table, the grid of a height map.
Everything is in work coordinates. Also the extent that a viewer shows.
-/

namespace PartProgram

variable {α : Type} [Scalar α]

/-- A rectangle from a corner by a signed size, as a closed contour of machine limits. -/
def rectangleStrokes (corner size : Point α) : List (Stroke α) :=
  [.start .machineLimit,
    .draw (.moveTo corner),
    .draw (.lineTo ⟨corner.x + size.x, corner.y⟩),
    .draw (.lineTo ⟨corner.x + size.x, corner.y + size.y⟩),
    .draw (.lineTo ⟨corner.x, corner.y + size.y⟩),
    .draw (.lineTo corner)]

/-- The radius of the circle drawn for a tool. -/
def toolRadius : α := 4

namespace ToolSlot

omit [Scalar α] in
/-- The slot holds a tool: placeholders have a negative number or hardly a name. -/
def isUsed (t : ToolSlot α) : Bool := 0 ≤ t.id && 1 < t.label.length

/-- A circle with the number and the name of the tool below to the left. -/
def strokes (t : ToolSlot α) (offset : Position α) : List (Stroke α) :=
  let center : Point α := ⟨t.x - offset.x, t.y - offset.y⟩
  [.start .toolTable,
    .draw (.moveTo ⟨center.x + toolRadius, center.y⟩),
    .draw (.arcTo center toolRadius 0 360),
    .write
      ⟨⟨center.x - 3 * toolRadius, center.y - toolRadius⟩, s!"{t.id}) {t.label}"⟩]

end ToolSlot

namespace Machine

/-- The travel rectangle and a frame around it, wider by twice the travel along X on every side. -/
def limitStrokes (m : Machine α) : List (Stroke α) :=
  match m.limits with
  | none => []
  | some limits =>
    let corner : Point α := ⟨limits.homeX - m.workOffset.x, limits.homeY - m.workOffset.y⟩
    let size : Point α := ⟨limits.rangeX, limits.rangeY⟩
    let wider := 2 * limits.rangeX
    rectangleStrokes corner size
      ++ rectangleStrokes ⟨corner.x - wider, corner.y - wider⟩
        ⟨size.x + 2 * wider, size.y + 2 * wider⟩

def toolStrokes (m : Machine α) : List (Stroke α) :=
  (m.tools.filter (·.isUsed)).flatMap (·.strokes m.workOffset)

end Machine

/-- A straight line as a contour of the height map. -/
def gridLine (a b : Point α) : List (Stroke α) :=
  [.start .heightMap, .draw (.moveTo a), .draw (.lineTo b)]

/-- The lines through all grid points, first those along Y. -/
def HeightMap.strokes (m : HeightMap α) : List (Stroke α) :=
  let columns := (List.range m.sizeX).flatMap fun ix =>
    let x := m.min.x + m.pitch.x * Scalar.ofNat ix
    gridLine ⟨x, m.min.y⟩ ⟨x, m.max.y⟩
  let rows := (List.range m.sizeY).flatMap fun iy =>
    let y := m.min.y + m.pitch.y * Scalar.ofNat iy
    gridLine ⟨m.min.x, y⟩ ⟨m.max.x, y⟩
  columns ++ rows

/-- How much an extent grows before it is rounded outwards. -/
def viewMargin : α := 1.01

/-- The corners of what a viewer shows: the extent grown a little and rounded outwards to the grid of
the unit, with some space left of and below zero. -/
def Extent.view (e : Extent α) (unit : LengthUnit) : Point α × Point α :=
  let step : α := unit.extentStep
  let down (v : α) : α :=
    let r := Scalar.floor (v * viewMargin / step) * step
    if 0 ≤ r then -step else r
  let up (v : α) : α := Scalar.ceil (v * viewMargin / step) * step
  (⟨down e.min.x, down e.min.y⟩, ⟨up e.max.x, up e.max.y⟩)

end PartProgram
