import PartProgram.Drawing.Path
import PartProgram.Machine
import PartProgram.Pass
import PartProgram.Program.Basic

/-!
The path of a program as a drawing: contours of the lowered and of the lifted pen, with markers where
a subroutine body begins and where a hole is drilled.
-/

namespace PartProgram

variable {α : Type} [Scalar α]

/-- What the drawing of a path remembers from block to block. -/
structure Tracer where
  /-- The layer of the contour being drawn, unless it was broken off. -/
  layer : Option Layer
  inBody : Bool
  /-- Moves that changed Z since the last move in the plane. -/
  zMoves : Nat
  deriving DecidableEq, Repr

def Tracer.atStart : Tracer := ⟨none, false, 0⟩

namespace Block

omit [Scalar α] in
/-- The layer that the block is drawn on. -/
def layer (b : Block α) : Layer := if b.motion.isEngaged then .penDown else .penUp

/-- The move of the block in the plane, if it makes one. -/
def segment? (b : Block α) : Option (Segment α) :=
  match b.place.arc with
  | some arc => some (.arcTo arc.center arc.radius arc.startAngle arc.sweep)
  | none =>
    if b.place.origin.xy != b.place.target.xy then some (.lineTo b.place.target.xy) else none

omit [Scalar α] in
/-- The block is part of what is drawn: of the whole path, or of one figure. -/
def isTraced (b : Block α) (only : Option Nat) : Bool :=
  only.isNone || b.place.figure == only

end Block

namespace Tracer

/-- Draws a block. -/
def draw (size : α) (t : Tracer) (entering : Bool) (b : Block α) : Tracer × List (Stroke α) :=
  let entry : List (Stroke α) :=
    if entering then [.mark ⟨b.place.target.xy, .subroutineEntry, size⟩] else []
  let changes := t.layer != some b.layer
  let opening : List (Stroke α) :=
    if changes then [.start b.layer, .draw (.moveTo b.place.origin.xy)] else []
  let segment := b.segment?
  let zMoves := if segment.isSome then 0 else t.zMoves
  let zMoves := if b.place.origin.z != b.place.target.z then zMoves + 1 else zMoves
  let drills := 1 < zMoves && changes && b.layer == .penUp
  let drill : List (Stroke α) := if drills then [.mark ⟨b.place.target.xy, .drill, size⟩] else []
  ({ t with layer := some b.layer, zMoves := if drills then 0 else zMoves },
    entry ++ opening ++ (segment.map .draw).toList ++ drill)

/-- Takes a block into account. Blocks that are not drawable or without motion leave the contour
open; a block of another figure breaks it off. -/
def step (size : α) (only : Option Nat) (t : Tracer) (b : Block α) : Tracer × List (Stroke α) :=
  let entering := b.inlined && !t.inBody
  let t := { t with inBody := b.inlined }
  if !b.isDrawable || b.motion == .unset then (t, [])
  else if b.isTraced only then t.draw size entering b
  else ({ t with layer := none }, [])

end Tracer

namespace Program

/-- The strokes of the path, or of one figure of it. -/
def strokes (p : Program α) (unit : LengthUnit) (only : Option Nat) : List (Stroke α) :=
  (pass (Tracer.step unit.markerSize only) .atStart p.executed).2.flatten

end Program

end PartProgram
