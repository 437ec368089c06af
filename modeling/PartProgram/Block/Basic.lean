import PartProgram.Block.Axis
import PartProgram.Block.Motion

/-!
A block: one line of a part program, with the words read off it, the modes in effect after it, and
where it takes the tool.
-/

namespace PartProgram

/-- A call of a subroutine: the body named `id` is run `times` times. -/
structure Call where
  id : Nat
  times : Nat
  deriving DecidableEq, Repr

/-- Words that have no part in the path. They are kept so that a line written anew still has them. -/
structure ExtraWords where
  /-- The `N` word, which comes first on the line. -/
  sequence : Option String := none
  /-- `G` words that select no motion, in the order of the line. -/
  gWords : List String := []
  /-- All others, in the order of the line. -/
  others : List String := []
  /-- The comments with their delimiters. -/
  comment : Option String := none
  deriving DecidableEq, Repr

/-- Where a block takes the tool. -/
structure Placement (α : Type) where
  origin : Position α
  target : Position α
  arc : Option (Arc α)
  /-- The number of the pen-down run that the block belongs to, from 1. -/
  figure : Option Nat

structure Block (α : Type) where
  /-- The line number, from 0. -/
  number : Nat
  /-- The line as read. -/
  text : String
  motion : Motion
  axes : AxisWords α
  /-- The displacement of an arc's centre from its start, along X. -/
  i : Option α
  /-- The displacement of an arc's centre from its start, along Y. -/
  j : Option α
  feed : α
  spindle : α
  /-- Axis words are coordinates (`G90`) and not displacements (`G91`). -/
  absolute : Bool
  /-- Axis words are coordinates of the machine, not of the work (`G53`). -/
  machineFrame : Bool
  call : Option Call
  /-- The `O` word, which names the subroutine body that follows. -/
  label : Option Nat
  /-- The line ends a subroutine body (`M99`). -/
  returns : Bool
  /-- The line ends the program (`M2` or `M30`). -/
  programEnd : Bool
  extra : ExtraWords
  /-- A copy of a subroutine line, inlined at a call. -/
  inlined : Bool
  /-- Within a section that is not to be drawn. -/
  hidden : Bool
  /-- Part of the setup footer. -/
  footer : Bool
  afterEnd : Bool
  place : Placement α
  /-- The words were changed, so the line is written from them and not copied. -/
  modified : Bool

variable {α : Type} [Scalar α]

def Placement.unplaced : Placement α := ⟨Position.origin, Position.origin, none, none⟩

namespace Block

/-- A line without words. -/
def inert (number : Nat) (text : String) : Block α where
  number
  text
  motion := .unset
  axes := .none
  i := none
  j := none
  feed := 0
  spindle := 0
  absolute := true
  machineFrame := false
  call := none
  label := none
  returns := false
  programEnd := false
  extra := {}
  inlined := false
  hidden := false
  footer := false
  afterEnd := false
  place := .unplaced
  modified := false

omit [Scalar α]

def x (b : Block α) : Option α := b.axes.get .x

def y (b : Block α) : Option α := b.axes.get .y

def z (b : Block α) : Option α := b.axes.get .z

/-- Some axis or arc offset is written. -/
def hasCoordinates (b : Block α) : Bool := b.axes.any || b.i.isSome || b.j.isSome

def hasXY (b : Block α) : Bool := b.x.isSome || b.y.isSome

/-- Edits may change the block. -/
def isEditable (b : Block α) : Bool := !(b.machineFrame || b.hidden || b.footer)

/-- The block counts for extent, coordinates, figures and drawing. -/
def isDrawable (b : Block α) : Bool := !(b.machineFrame || b.hidden || b.afterEnd)

/-- The block with new axis words, marked as changed. -/
def withAxis (b : Block α) (axis : Axis) (value : Option α) : Block α :=
  { b with axes := b.axes.set axis value, modified := true }

end Block

end PartProgram
