import PartProgram.Plane.Extent
import PartProgram.Text.Blank

/-!
The nine reference points of an extent: its corners, the middles of its sides, and its centre.
-/

namespace PartProgram

inductive Anchor where
  | topLeft | topCenter | topRight
  | middleLeft | center | middleRight
  | bottomLeft | bottomCenter | bottomRight
  deriving DecidableEq, Repr

namespace Anchor

def all : List Anchor :=
  [topLeft, topCenter, topRight, middleLeft, center, middleRight, bottomLeft, bottomCenter,
    bottomRight]

def name : Anchor → String
  | topLeft => "top-left"
  | topCenter => "top-center"
  | topRight => "top-right"
  | middleLeft => "middle-left"
  | center => "center"
  | middleRight => "middle-right"
  | bottomLeft => "bottom-left"
  | bottomCenter => "bottom-center"
  | bottomRight => "bottom-right"

/-- The anchor of a name; white space around it and the case of ASCII letters do not matter. -/
def ofName? (text : String) : Option Anchor :=
  let wanted := String.ofList ((Text.trim text.toList).map Char.toLower)
  all.find? (·.name == wanted)

/-- What is said about a name that no anchor has. -/
def unknownMessage (text : String) : String := s!"unknown anchor '{text}'"

/-- The place of the anchor on an extent. -/
def point {α : Type} [Scalar α] (a : Anchor) (e : Extent α) : Point α :=
  let x := match a with
    | topLeft | middleLeft | bottomLeft => e.min.x
    | topCenter | center | bottomCenter => e.center.x
    | topRight | middleRight | bottomRight => e.max.x
  let y := match a with
    | topLeft | topCenter | topRight => e.max.y
    | middleLeft | center | middleRight => e.center.y
    | bottomLeft | bottomCenter | bottomRight => e.min.y
  ⟨x, y⟩

end Anchor

end PartProgram
