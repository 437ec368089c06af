import PartProgram.Block.Basic
import PartProgram.Plane.Extent
import PartProgram.Program.Coordinates

/-!
A part program: its lines, the copies of subroutine lines that each of them brings into execution,
and what follows from running them.
-/

namespace PartProgram

/-- A subroutine line inlined at a call. -/
structure Copy (α : Type) where
  /-- The line it is a copy of. -/
  definition : Nat
  block : Block α

/-- A line with the copies that are executed after it. -/
structure Entry (α : Type) where
  line : Block α
  copies : List (Copy α)

structure Program (α : Type) where
  entries : List (Entry α)
  containsArcs : Bool
  containsRelative : Bool
  extent : Extent α
  coordinates : Coordinates α
  /-- How many pen-down runs there are. -/
  figures : Nat

namespace Entry

variable {α : Type}

/-- What is executed for the line. -/
def executed (e : Entry α) : List (Block α) := e.line :: e.copies.map (·.block)

/-- A line that brings no copies along. -/
def ofLine (line : Block α) : Entry α := ⟨line, []⟩

end Entry

namespace Program

variable {α : Type}

def empty : Program α := ⟨[], false, false, {}, [], 0⟩

/-- The lines of the text, one block each. -/
def lines (p : Program α) : List (Block α) := p.entries.map (·.line)

/-- All blocks in the order of execution. -/
def executed (p : Program α) : List (Block α) := p.entries.flatMap Entry.executed

def isEmpty (p : Program α) : Bool := p.entries.isEmpty

/-- The program with its lines changed; copies and the results of the last run stay as they are. -/
def mapLines (p : Program α) (f : Block α → Block α) : Program α :=
  { p with entries := p.entries.map fun e => { e with line := f e.line } }

/-- A new line in front of line `index`, or at the end. Copies of later lines keep pointing at them;
positions are out of date until the program is placed again. -/
def insertLine (p : Program α) (index : Nat) (line : Block α) : Program α :=
  let index := min index p.entries.length
  let entries := p.entries.map fun e =>
    { e with copies := e.copies.map fun c =>
        if index ≤ c.definition then { c with definition := c.definition + 1 } else c }
  { p with entries := entries.insertIdx index (.ofLine line) }

end Program

end PartProgram
