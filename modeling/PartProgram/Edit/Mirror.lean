import PartProgram.Program.Basic

/-!
Mirroring a program along X or along Y about the centre of its extent.
-/

namespace PartProgram

/-- The coordinate that a mirror turns around. -/
inductive MirrorAxis where
  | x
  | y
  deriving DecidableEq, Repr

namespace MirrorAxis

def axis : MirrorAxis → Axis
  | x => .x
  | y => .y

/-- Twice the coordinate of the mirror: a coordinate `v` goes to this sum less `v`. -/
def sum {α : Type} [Scalar α] (m : MirrorAxis) (e : Extent α) : α :=
  match m with
  | x => e.min.x + e.max.x
  | y => e.min.y + e.max.y

end MirrorAxis

variable {α : Type}

namespace Block

/-- The arc offset along the mirrored coordinate. -/
def mirrorOffset (b : Block α) : MirrorAxis → Option α
  | .x => b.i
  | .y => b.j

/-- The mirror changes something on the line. -/
def isMirrored (b : Block α) (m : MirrorAxis) : Bool :=
  (b.axes.get m.axis).isSome || (b.mirrorOffset m).isSome
    || (b.motion.isArc && b.hasCoordinates)

variable [Scalar α]

/-- The block in the mirror: absolute coordinates are reflected, displacements and arc offsets change
sign, and arcs turn the other way. -/
def mirrored (m : MirrorAxis) (sum : α) (b : Block α) : Block α :=
  if b.isMirrored m then
    let reflect (v : α) : α := if b.absolute then sum - v else -v
    { b with
      axes := b.axes.set m.axis ((b.axes.get m.axis).map reflect)
      i := if m = .x then b.i.map (- ·) else b.i
      j := if m = .y then b.j.map (- ·) else b.j
      motion := b.motion.mirrored
      modified := true }
  else b

end Block

namespace Program

/-- Changes the lines that may be edited. -/
def editLines (p : Program α) (f : Block α → Block α) : Program α :=
  p.mapLines fun b => if b.isEditable then f b else b

/-- The program in the mirror, not yet placed. -/
def mirror [Scalar α] (p : Program α) (m : MirrorAxis) : Program α :=
  p.editLines (Block.mirrored m (m.sum p.extent))

end Program

end PartProgram
