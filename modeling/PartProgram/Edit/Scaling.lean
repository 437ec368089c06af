import PartProgram.Edit.Mirror

/-!
Scaling X and Y on their own, rotating and scaling about a pivot, and dropping Z.
-/

namespace PartProgram

variable {α : Type}

namespace Block

/-- The line writes X, Y or an arc offset. -/
def writesPlane (b : Block α) : Bool := b.hasXY || b.i.isSome || b.j.isSome

/-- The block without its Z word. -/
def withoutZ (b : Block α) : Block α := if b.z.isSome then b.withAxis .z none else b

variable [Scalar α]

/-- The block with every X and every offset along X multiplied by `fx`, and the same for Y. -/
def stretched (fx fy : α) (b : Block α) : Block α :=
  if b.writesPlane then
    { b with
      axes := (b.axes.set .x (b.x.map (· * fx))).set .y (b.y.map (· * fy))
      i := b.i.map (· * fx)
      j := b.j.map (· * fy)
      modified := true }
  else b

end Block

/-- A turn by `degrees`, counter-clockwise, and a change of scale about a pivot. -/
structure Similarity (α : Type) where
  degrees : α
  scale : α
  pivot : Point α

namespace Similarity

variable [Scalar α]

/-- Where a displacement goes. -/
def ofVector (s : Similarity α) (v : Point α) : Point α := (v.rotated s.degrees).scaled s.scale

/-- Where a point goes. -/
def ofPoint (s : Similarity α) (p : Point α) : Point α := s.ofVector (p - s.pivot) + s.pivot

end Similarity

/-- The nearest distance at which two positions of a line are different ones. -/
def samePlace [Scalar α] : α := 1e-9

namespace Block

variable [Scalar α]

/-- From where an absolute line is turned, given where its inlined copies end, and whether a missing
coordinate may be filled in. A line that lacks X or Y is turned from where its copies run; if they
run in different places, only the words it has are changed. -/
def turnedFrom (b : Block α) (copies : List (Point α)) : Point α × Bool :=
  if b.x.isNone || b.y.isNone then
    match copies with
    | [] => (b.place.target.xy, true)
    | first :: _ => (first, copies.all fun c => c.distance first < samePlace)
  else (b.place.target.xy, true)

/-- Where the end of the block goes, and whether missing coordinates may be filled in. -/
def turnedEnd (s : Similarity α) (copies : List (Point α)) (b : Block α) : Point α × Bool :=
  if b.absolute then
    let (start, fill) := b.turnedFrom copies
    (s.ofPoint start, fill)
  else (s.ofVector ⟨b.x.getD 0, b.y.getD 0⟩, true)

/-- The axis words of the turned block. -/
def turnedAxes (s : Similarity α) (copies : List (Point α)) (b : Block α) : AxisWords α :=
  if b.hasXY then
    let (p, fill) := b.turnedEnd s copies
    let axes := if fill || b.x.isSome then b.axes.set .x (some p.x) else b.axes
    if fill || b.y.isSome then axes.set .y (some p.y) else axes
  else b.axes

/-- The block turned and scaled. Of an arc with one offset both are written. -/
def turned (s : Similarity α) (copies : List (Point α)) (b : Block α) : Block α :=
  if b.writesPlane then
    let b := { b with axes := b.turnedAxes s copies, modified := true }
    if b.i.isSome || b.j.isSome then
      let c := s.ofVector ⟨b.i.getD 0, b.j.getD 0⟩
      { b with i := some c.x, j := some c.y }
    else b
  else b

end Block

namespace Program

/-- For every line, where its inlined copies end, in the order of execution. -/
def copyTargets (p : Program α) : Array (List (Point α)) :=
  (p.entries.flatMap (·.copies)).foldr
    (fun c targets => targets.modify c.definition (c.block.place.target.xy :: ·))
    (Array.replicate p.entries.length [])

/-- The program turned and scaled, not yet placed. -/
def turn [Scalar α] (p : Program α) (s : Similarity α) : Program α :=
  let targets := p.copyTargets
  { p with
    entries := p.entries.mapIdx fun n e =>
      if e.line.isEditable then { e with line := e.line.turned s (targets.getD n []) } else e }

/-- The program with X and Y scaled, not yet placed. -/
def stretch [Scalar α] (p : Program α) (fx fy : α) : Program α := p.editLines (Block.stretched fx fy)

/-- The program without Z words, not yet placed. -/
def dropZ (p : Program α) : Program α := p.editLines Block.withoutZ

end Program

end PartProgram
