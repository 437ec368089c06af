import PartProgram.Plane.Point

/-!
Circular arcs in the XY plane. Angles are in degrees, counter-clockwise from the X axis; a clockwise
arc has a negative sweep.
-/

namespace PartProgram

/-- The sense in which an arc is run. -/
inductive Winding where
  | clockwise
  | counterclockwise
  deriving DecidableEq, Repr

namespace Winding

def flip : Winding → Winding
  | clockwise => counterclockwise
  | counterclockwise => clockwise

@[simp]
theorem flip_flip (w : Winding) : w.flip.flip = w := by cases w <;> rfl

end Winding

structure Arc (α : Type) where
  center : Point α
  radius : α
  /-- The direction from the centre to the start point. -/
  startAngle : α
  /-- How far the arc turns, negative for clockwise. -/
  sweep : α
  deriving BEq, DecidableEq, Repr

namespace Arc

variable {α : Type} [Scalar α]

/-- The radius of an arc whose centre lies on its start point. -/
def leastRadius : α := 1e-7

/-- Smaller turns than this are full circles; the same slack is given at the ends of a sweep. -/
def angleTolerance : α := 1e-9

/-- The most pieces that one move is cut into. -/
def maxPieces : Nat := 100000

/-- How many degrees are turned from `start` to `finish` around `center`: more than zero and at most
a full circle, which is what start and end in one direction from the centre mean. -/
def sweepDegrees (start center finish : Point α) (winding : Winding) : α :=
  let startAngle := Scalar.atan2 (start.y - center.y) (start.x - center.x)
  let endAngle := Scalar.atan2 (finish.y - center.y) (finish.x - center.x)
  let turned := match winding with
    | .clockwise => startAngle - endAngle
    | .counterclockwise => endAngle - startAngle
  let sweep := Scalar.modulo (Scalar.toDegrees turned) 360
  if sweep < angleTolerance then 360 else sweep

/-- The arc from `start` to `finish` whose centre is displaced from the start by `(i, j)`. -/
def ofOffsets (start finish : Point α) (i j : α) (winding : Winding) : Arc α :=
  let center := start + ⟨i, j⟩
  let radius := Scalar.hypot i j
  let magnitude := sweepDegrees start center finish winding
  { center
    radius := if 0 < radius then radius else leastRadius
    startAngle := Scalar.toDegrees (Scalar.atan2 (start.y - center.y) (start.x - center.x))
    sweep := match winding with
      | .clockwise => -magnitude
      | .counterclockwise => magnitude }

def isClockwise (a : Arc α) : Bool := a.sweep < 0

def endAngle (a : Arc α) : α := a.startAngle + a.sweep

/-- The point of the full circle in the given direction from the centre. -/
def pointAt (a : Arc α) (degrees : α) : Point α :=
  let s := Scalar.sin (Scalar.toRadians degrees)
  let c := Scalar.cos (Scalar.toRadians degrees)
  ⟨a.center.x + a.radius * c, a.center.y + a.radius * s⟩

/-- The sweep passes through the direction, ends included. -/
def containsAngle (a : Arc α) (degrees : α) : Bool :=
  let turned :=
    if 0 ≤ a.sweep then Scalar.modulo (degrees - a.startAngle) 360
    else Scalar.modulo (a.startAngle - degrees) 360
  turned ≤ Scalar.abs a.sweep + angleTolerance

/-- Into how many equal turns the arc is cut so that no chord is longer than `maxStep`. -/
def pieceCount (a : Arc α) (maxStep : α) : Nat :=
  if 0 < maxStep then
    let maxAngle : α :=
      if 2 * a.radius ≤ maxStep then Scalar.pi
      else 2 * Scalar.asin (maxStep / (2 * a.radius))
    let n := Scalar.ceil (Scalar.toRadians (Scalar.abs a.sweep) / maxAngle)
    if !Scalar.isFinite n || n < 1 then 1
    else if Scalar.ofNat maxPieces < n then maxPieces
    else Scalar.toNat n
  else 1

end Arc

end PartProgram
