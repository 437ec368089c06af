import PartProgram.Plane.Arc

/-!
The extent of a program: the least and greatest coordinate on each axis.
-/

namespace PartProgram

/-- A closed range of coordinates. -/
structure Range (α : Type) where
  lo : α
  hi : α
  deriving BEq, DecidableEq, Repr

/-- The range of the coordinates seen so far on each axis, if any. -/
structure Extent (α : Type) where
  x : Option (Range α) := none
  y : Option (Range α) := none
  z : Option (Range α) := none
  deriving BEq, DecidableEq, Repr

variable {α : Type} [Scalar α]

/-- The range grown to hold `v`. An undefined coordinate, one that differs from itself, is passed
over. -/
def Range.including (range : Option (Range α)) (v : α) : Option (Range α) :=
  match range with
  | none => if v == v then some ⟨v, v⟩ else none
  | some ⟨lo, hi⟩ => some ⟨Scalar.min lo v, Scalar.max hi v⟩

namespace Extent

def includeXY (e : Extent α) (p : Point α) : Extent α :=
  { e with x := Range.including e.x p.x, y := Range.including e.y p.y }

def includeZ (e : Extent α) (z : α) : Extent α := { e with z := Range.including e.z z }

/-- The directions in which a circle reaches furthest. -/
def quadrants : List α := [0, 90, 180, 270]

/-- Adds the ends of the arc and every quadrant point that it passes through. -/
def includeArc (e : Extent α) (arc : Arc α) : Extent α :=
  let e := e.includeXY (arc.pointAt arc.startAngle)
  let e := e.includeXY (arc.pointAt arc.endAngle)
  quadrants.foldl (fun e q => if arc.containsAngle q then e.includeXY (arc.pointAt q) else e) e

/-- No point of the plane has been included. -/
def isEmpty (e : Extent α) : Bool := e.x.isNone || e.y.isNone

/-- The corners at the bottom left and at the top right; both are the origin when empty. -/
def corners (e : Extent α) : Point α × Point α :=
  match e.x, e.y with
  | some x, some y => (⟨x.lo, y.lo⟩, ⟨x.hi, y.hi⟩)
  | _, _ => (Point.origin, Point.origin)

def min (e : Extent α) : Point α := e.corners.1

def max (e : Extent α) : Point α := e.corners.2

/-- Width and height. -/
def dimensions (e : Extent α) : Point α := e.max - e.min

def center (e : Extent α) : Point α :=
  ⟨(e.min.x + e.max.x) / 2, (e.min.y + e.max.y) / 2⟩

end Extent

end PartProgram
