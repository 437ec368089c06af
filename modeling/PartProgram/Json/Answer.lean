import PartProgram.Json.Printer
import PartProgram.Query

/-!
Answers to questions as documents.
-/

namespace PartProgram.Json

def ofNat (n : Nat) : Json := .integer n

def ofOption {β : Type} (f : β → Json) : Option β → Json
  | none => .null
  | some x => f x

def ofPoint (p : Point Float) : Json := .object [("x", .float p.x), ("y", .float p.y)]

def nameOfSource : HitSource → String
  | .program => "program"
  | .landmark => "landmark"

def ofHit (h : Hit Float) : Json :=
  .object [("line_number", ofNat h.line), ("figure", ofOption ofNat h.figure),
    ("position", ofPoint h.position), ("distance", .float h.distance),
    ("source", .string (nameOfSource h.source))]

def ofCoordinate (c : Coordinate Float) : Json :=
  .object [("line_number", ofNat c.line), ("figure", ofOption ofNat c.figure),
    ("position", ofPoint c.position), ("arc_center", .bool c.isCenter)]

def ofFigureLines (f : FigureLines) : Json :=
  .object [("figure", ofNat f.figure), ("first_line", ofNat f.first),
    ("last_line", ofNat f.last)]

/-- The ends of a range; an axis that was never written has none. -/
def lowOf (r : Option (Range Float)) : Json := ofOption (fun r => .float r.lo) r

def highOf (r : Option (Range Float)) : Json := ofOption (fun r => .float r.hi) r

def ofExtent (e : Extent Float) : Json :=
  .object [("min_x", lowOf e.x), ("max_x", highOf e.x), ("min_y", lowOf e.y),
    ("max_y", highOf e.y), ("min_z", lowOf e.z), ("max_z", highOf e.z)]

def ofInfo (i : ProgramInfo Float) : Json :=
  .object [("lines", ofNat i.lines), ("executed", ofNat i.executed),
    ("figures", ofNat i.figures), ("contains_arcs", .bool i.containsArcs),
    ("contains_relative", .bool i.containsRelative), ("bounds", ofOption ofExtent i.extent),
    ("extents", .object [("min", ofPoint i.view.1), ("max", ofPoint i.view.2)])]

def nameOfLayer : Layer → String
  | .penUp => "pen_up"
  | .penDown => "pen_down"
  | .machineLimit => "machine_limit"
  | .toolTable => "tool_table"
  | .heightMap => "height_map"

def nameOfMarker : MarkerKind → String
  | .drill => "drill"
  | .subroutineEntry => "subroutine_entry"

def ofSegment : Segment Float → Json
  | .moveTo p => .object [("type", .string "move_to"), ("to", ofPoint p)]
  | .lineTo p => .object [("type", .string "line_to"), ("to", ofPoint p)]
  | .arcTo center radius startAngle sweep =>
    .object [("type", .string "arc_to"), ("center", ofPoint center), ("radius", .float radius),
      ("start_angle", .float startAngle), ("sweep", .float sweep)]

def ofDrawing (d : Drawing Float) : Json :=
  .object [
    ("contours", .array (d.contours.map fun c =>
      .object [("layer", .string (nameOfLayer c.layer)),
        ("segments", .array (c.segments.map ofSegment))])),
    ("markers", .array (d.markers.map fun m =>
      .object [("at", ofPoint m.position), ("kind", .string (nameOfMarker m.kind)),
        ("size", .float m.size)])),
    ("labels", .array (d.labels.map fun l =>
      .object [("at", ofPoint l.position), ("text", .string l.text)]))]

end PartProgram.Json
