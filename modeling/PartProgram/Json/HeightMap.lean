import PartProgram.HeightMap
import PartProgram.Json.Parser
import PartProgram.Number.Floating

/-!
Height maps as documents: an object with the corners `min` and `max`, the numbers of grid points
`size_x` and `size_y`, and the `heights` row by row. The map and its corners may also be arrays that
hold the same values in this order.
-/

namespace PartProgram

/-- Why a text is no height map. -/
inductive MapError where
  /-- The text is no document, or not one of a height map. -/
  | malformed
  /-- The document describes an impossible grid. -/
  | grid (fault : GridFault)
  deriving DecidableEq, Repr

def MapError.message : MapError → String
  | malformed => "the text is not a height map document"
  | grid fault => "height map error: " ++ fault.message

namespace Json

/-- A number that is finite. -/
def number? : Json → Option Float
  | integer n => some (Binary64.ofDecimal ⟨n < 0, n.natAbs, 0⟩)
  | float x => if x.isFinite then some x else none
  | _ => none

/-- A count that a machine word holds. -/
def count? : Json → Option Nat
  | integer n => if fitsUnsigned 64 n then some n.toNat else none
  | _ => none

/-- The fields of a record with the given names: members of an object, each there once, or the items
of an array. Other members of an object are ignored. -/
def fields? (names : List String) : Json → Option (List Json)
  | array items => if items.length = names.length then some items else none
  | object members => names.mapM fun name =>
    match members.filter (·.1 == name) with
    | [(_, value)] => some value
    | _ => none
  | _ => none

def point? (j : Json) : Option (Point Float) :=
  match j.fields? ["x", "y"] with
  | some [x, y] => do some ⟨← x.number?, ← y.number?⟩
  | _ => none

def numbers? : Json → Option (Array Float)
  | array items => (items.mapM number?).map List.toArray
  | _ => none

/-- The grid of a document, which may still be impossible. -/
def heightMap? (j : Json) : Option (HeightMap Float) :=
  match j.fields? ["min", "max", "size_x", "size_y", "heights"] with
  | some [min, max, sizeX, sizeY, heights] => do
    some ⟨← min.point?, ← max.point?, ← sizeX.count?, ← sizeY.count?, ← heights.numbers?⟩
  | _ => none

end Json

/-- Reads a height map. An impossible grid is reported before anything that follows the document. -/
def HeightMap.ofText (text : String) : Except MapError (HeightMap Float) :=
  match Json.readStart? text with
  | none => .error .malformed
  | some (document, rest) =>
    match document.heightMap? with
    | none => .error .malformed
    | some map =>
      match map.fault? with
      | some fault => .error (.grid fault)
      | none => if rest.isEmpty then .ok map else .error .malformed

end PartProgram
