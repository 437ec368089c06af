import PartProgram.Plane.Point

/-!
What has to be known about a machine to place a program on it.
-/

namespace PartProgram

inductive LengthUnit where
  | millimeter
  | inch
  deriving DecidableEq, Repr

/-- The rectangle that the machine can travel, in machine coordinates. -/
structure TravelLimits (α : Type) where
  homeX : α
  homeY : α
  /-- Signed travel from home along X. -/
  rangeX : α
  /-- Signed travel from home along Y. -/
  rangeY : α
  deriving BEq, DecidableEq

/-- A place of the tool table, in machine coordinates. -/
structure ToolSlot (α : Type) where
  x : α
  y : α
  id : Int
  label : String
  deriving BEq, DecidableEq

structure Machine (α : Type) where
  unit : LengthUnit
  /-- The position of the tool in work coordinates, where programs start. -/
  workPosition : Position α
  /-- What is added to a work position to give the machine position. -/
  workOffset : Position α
  limits : Option (TravelLimits α)
  tools : List (ToolSlot α)
  deriving BEq, DecidableEq

variable {α : Type} [Scalar α]

namespace LengthUnit

/-- The grid that drawing extents are rounded to. -/
def extentStep : LengthUnit → α
  | millimeter => 5
  | inch => 0.25

/-- One millimetre in the unit: the size of a marker. -/
def markerSize : LengthUnit → α
  | millimeter => 1
  | inch => 1 / 25.4

end LengthUnit

namespace Machine

def default : Machine α := ⟨.millimeter, Position.origin, Position.origin, none, []⟩

def toWork (m : Machine α) (p : Position α) : Position α := p - m.workOffset

def toMachine (m : Machine α) (p : Position α) : Position α := p + m.workOffset

end Machine

end PartProgram
