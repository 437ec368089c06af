import PartProgram.Block.Writing
import PartProgram.Pass
import PartProgram.Program.Basic
import PartProgram.Program.Splitting
import PartProgram.Text.Blank

/-!
The text of a program. Lines that were not changed are copied, changed ones are written from their
words.
-/

namespace PartProgram

variable {α : Type} [Scalar α]

/-- The text of a sequence of blocks, one line each. -/
def listing (format : NumberFormat) (blocks : List (Block α)) : String :=
  Text.ofLines (pass (Block.write format) Emitted.atStart blocks).2

/-- The text of a sequence of blocks with arcs and long moves cut into pieces of `step`. -/
def linearListing (format : NumberFormat) (step : α) (blocks : List (Block α)) : String :=
  listing format (blocks.flatMap (Block.linearized step (some step) format.decimalPlaces))

/-- A line without effect that stands for `b`, with the modes in effect there. -/
def Block.standIn (b : Block α) (text : String) : Block α :=
  { inert b.number text with
    feed := b.feed
    spindle := b.spindle
    absolute := b.absolute
    motion := b.motion
    inlined := b.inlined
    hidden := b.hidden }

/-- The text of a line within parentheses. -/
def enclosed (before : String) (text : String) (after : String) : String :=
  before ++ String.ofList (Text.trim text.toList) ++ after

namespace Program

/-- The text of the program. -/
def text (p : Program α) (format : NumberFormat) : String := listing format p.lines

/-- A line of the program without calls: calls and lines after the end become comments. -/
def flattenLine (b : Block α) : Block α :=
  if b.afterEnd then b.standIn (enclosed "( " b.text " )")
  else if b.call.isSome then b.standIn (enclosed "(" b.text ")")
  else b

/-- A copy in the program without calls. -/
def flattenCopy (b : Block α) : Block α :=
  if b.call.isSome then b.standIn (enclosed "(" b.text ")") else b

/-- The executed blocks as a program without calls. -/
def flattened (p : Program α) : List (Block α) :=
  p.entries.flatMap fun e => flattenLine e.line :: e.copies.map fun c => flattenCopy c.block

end Program

end PartProgram
