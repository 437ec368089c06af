import PartProgram.Machine
import PartProgram.Pass
import PartProgram.Program.Basic

/-!
Placing a program: every executed block gets the position it starts from and the one it reaches, in
absolute work coordinates. Extent, figures and coordinates are gathered on the way.
-/

namespace PartProgram

variable {α : Type} [Scalar α]

namespace Block

/-- The coordinate that the block reaches on one axis, coming from `previous`. -/
def axisTarget (b : Block α) (axis : Axis) (previous offset : α) : α :=
  match b.axes.get axis with
  | none => previous
  | some v =>
    if b.absolute then (if b.machineFrame then v - offset else v)
    else previous + v

/-- The position that the block reaches from `origin`. -/
def targetFrom (b : Block α) (machine : Machine α) (origin : Position α) : Position α :=
  { x := b.axisTarget .x origin.x machine.workOffset.x
    y := b.axisTarget .y origin.y machine.workOffset.y
    z := b.axisTarget .z origin.z machine.workOffset.z }

/-- The arc that the block runs between two points: an arc motion with at least one offset. -/
def arcBetween (b : Block α) (origin target : Point α) : Option (Arc α) :=
  match b.motion.winding? with
  | some winding =>
    if b.i.isSome || b.j.isSome then
      some (Arc.ofOffsets origin target (b.i.getD 0) (b.j.getD 0) winding)
    else none
  | none => none

/-- Where the block takes the tool from `origin`, leaving the figure open. -/
def placementFrom (b : Block α) (machine : Machine α) (origin : Position α) : Placement α :=
  let target := b.targetFrom machine origin
  { origin, target, arc := b.arcBetween origin.xy target.xy, figure := none }

omit [Scalar α] in
/-- The positions that the block contributes: where it ends, and the centre of its arc. -/
def coordinates (b : Block α) : List (Coordinate α) :=
  if b.hasCoordinates then
    ⟨b.number, b.place.figure, b.place.target.xy, false⟩ ::
      (b.place.arc.map fun arc => ⟨b.number, b.place.figure, arc.center, true⟩).toList
  else []

end Block

/-- The tool on its way through a program, and what it has drawn so far. -/
structure Tool (α : Type) where
  position : Position α
  penDown : Bool
  /-- The start of the current figure is not in the extent yet. -/
  startPending : Bool
  figures : Nat
  extent : Extent α
  coordinates : Array (Coordinate α)

namespace Tool

def atStart (machine : Machine α) : Tool α :=
  ⟨machine.workPosition, false, false, 0, {}, #[]⟩

omit [Scalar α] in
/-- Lowers or lifts the pen. Lowering it starts a figure. -/
def setPen (t : Tool α) (engaged : Bool) : Tool α :=
  if engaged && !t.penDown then
    { t with penDown := true, figures := t.figures + 1, startPending := true }
  else { t with penDown := engaged }

/-- Adds a drawn block to the extent: a cutting move with its arc and, first in a figure, its start;
a written Z in any case. -/
def addExtent (t : Tool α) (b : Block α) : Tool α :=
  let t :=
    if b.motion.isEngaged && b.hasXY then
      let extent := if t.startPending then t.extent.includeXY b.place.origin.xy else t.extent
      let extent := extent.includeXY b.place.target.xy
      let extent := b.place.arc.elim extent extent.includeArc
      { t with extent, startPending := false }
    else t
  if b.z.isSome then { t with extent := t.extent.includeZ b.place.target.z } else t

/-- Moves the tool through a block and places the block. -/
def step (machine : Machine α) (t : Tool α) (b : Block α) : Tool α × Block α :=
  let b := { b with place := b.placementFrom machine t.position }
  let t := { t with position := b.place.target }
  if b.isDrawable then
    let engaged := b.motion.isEngaged
    let t := t.setPen engaged
    let figure := if engaged then some t.figures else none
    let b := { b with place := { b.place with figure } }
    let t := t.addExtent b
    ({ t with coordinates := b.coordinates.foldl Array.push t.coordinates }, b)
  else (t, b)

end Tool

omit [Scalar α] in
/-- A copy follows the line it was taken from: once that line has been changed, the copy takes over
its coordinate words, and the winding of its arc. -/
def Copy.follow (lines : Array (Block α)) (c : Copy α) : Copy α :=
  match lines[c.definition]? with
  | none => c
  | some line =>
    if line.modified then
      let motion :=
        if line.motion.isArc && c.block.motion.isArc then line.motion else c.block.motion
      { c with block :=
          { c.block with
            axes := line.axes, i := line.i, j := line.j, motion, modified := true } }
    else c

/-- Places a line and then its copies. -/
def Entry.place (machine : Machine α) (lines : Array (Block α)) (t : Tool α) (e : Entry α) :
    Tool α × Entry α :=
  let (t, line) := t.step machine e.line
  let (t, copies) := pass (fun t c =>
    let c := Copy.follow lines c
    let (t, block) := Tool.step machine t c.block
    (t, { c with block })) t e.copies
  (t, { line, copies })

namespace Program

/-- Runs the program from the machine's work position and records where every block goes. -/
def place (p : Program α) (machine : Machine α) : Program α :=
  let (t, entries) := pass (Entry.place machine p.lines.toArray) (.atStart machine) p.entries
  { p with
    entries
    extent := t.extent
    coordinates := t.coordinates.toList
    figures := t.figures }

/-- The program that executes exactly the given blocks. -/
def ofBlocks (blocks : List (Block α)) (machine : Machine α) : Program α :=
  { (empty : Program α) with
    entries := blocks.map .ofLine
    containsArcs := blocks.any (·.motion.isArc)
    containsRelative := blocks.any (!·.absolute) }.place machine

end Program

end PartProgram
