import PartProgram.Plane.Arc

/-!
The ways a tool can move.
-/

namespace PartProgram

/-- The motion in effect. `unset` lasts until the first motion word. -/
inductive Motion where
  | unset
  | rapid
  | linear
  | arc (winding : Winding)
  deriving DecidableEq, Repr

namespace Motion

/-- The motion that a G code selects. -/
def ofCode? : Nat → Option Motion
  | 0 => some rapid
  | 1 => some linear
  | 2 => some (arc .clockwise)
  | 3 => some (arc .counterclockwise)
  | _ => none

/-- The G code that selects the motion. -/
def code? : Motion → Option Nat
  | unset => none
  | rapid => some 0
  | linear => some 1
  | arc .clockwise => some 2
  | arc .counterclockwise => some 3

def winding? : Motion → Option Winding
  | arc w => some w
  | _ => none

def isArc (m : Motion) : Bool := m.winding?.isSome

/-- The tool cuts: every motion but a rapid one. -/
def isEngaged : Motion → Bool
  | unset | rapid => false
  | linear | arc _ => true

/-- The motion seen in a mirror: arcs turn the other way. -/
def mirrored : Motion → Motion
  | arc w => arc w.flip
  | m => m

theorem ofCode?_code? {m : Motion} {n : Nat} (h : m.code? = some n) : ofCode? n = some m := by
  match m, h with
  | rapid, rfl | linear, rfl | arc .clockwise, rfl | arc .counterclockwise, rfl => rfl

@[simp]
theorem mirrored_mirrored (m : Motion) : m.mirrored.mirrored = m := by cases m <;> simp [mirrored]

end Motion

end PartProgram
