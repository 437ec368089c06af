import PartProgram.HeightMap
import PartProgram.Program.Listing
import PartProgram.Program.Placing

/-!
Following a surface: the program is written without calls, its moves are cut to the grid of the
surface, and every cut gets the height of the surface added to its Z.
-/

namespace PartProgram

variable {α : Type} [Scalar α]

namespace Block

/-- The height that the block has to be raised by, if it has to be: a move that cuts, or one over
ground that is not level. -/
def correction (surface : Surface α) (b : Block α) : Option α :=
  if b.isEditable && (b.hasXY || b.z.isSome) then
    let h := surface.heightAt b.place.target.x b.place.target.y
    if b.motion.isEngaged || h != 0 then some h else none
  else none

/-- The Z that a block reaches without correction, coming from the height `z`. -/
def heightAfter (b : Block α) (z : α) : α :=
  match b.z with
  | none => z
  | some dz => if b.absolute then b.place.target.z else z + dz

end Block

/-- Corrects a block, given the height that the tool is really at. Corrected heights are multiples of
the last written place, so that relative heights add up. -/
def followStep (surface : Surface α) (places : Nat) (z : α) (b : Block α) : α × Block α :=
  match b.correction surface with
  | none => (b.heightAfter z, b)
  | some h =>
    let unit : α := Scalar.scale places
    let target := Scalar.round ((b.place.target.z + h) * unit) / unit
    (target, b.withAxis .z (some (if b.absolute then target else target - z)))

namespace Program

/-- The lines of the program that follows a surface. -/
def following (p : Program α) (surface : Surface α) (places : Nat) (machine : Machine α) :
    List (Block α) :=
  let step := surface.cellSize
  let blocks := p.flattened.flatMap (Block.linearized step (some step) places)
  let flat := ofBlocks blocks machine
  (pass (followStep surface places) machine.workPosition.z flat.lines).2

end Program

end PartProgram
