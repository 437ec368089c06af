import PartProgram.Block.Basic

/-!
Modal state: what a line leaves in effect for the next one, while reading and while writing.
-/

namespace PartProgram

/-- The codes of a line that steer subroutines and the end of the program. They hold for that line
only. -/
structure LineCodes where
  /-- An `M` word that matters here: 2, 30, 98 or 99. -/
  m : Option Nat := none
  p : Option Nat := none
  o : Option Nat := none
  l : Option Nat := none
  deriving DecidableEq, Repr

/-- The state carried from line to line. -/
structure Modal (α : Type) where
  motion : Motion
  absolute : Bool
  feed : α
  spindle : α
  /-- An arc motion has been selected somewhere. -/
  containsArc : Bool
  /-- Relative distances have been selected somewhere. -/
  containsRelative : Bool
  /-- The codes of the line read last. -/
  codes : LineCodes

variable {α : Type} [Scalar α]

/-- The state before the first line: absolute distances, no motion, no feed, spindle at rest. -/
def Modal.initial : Modal α where
  motion := .unset
  absolute := true
  feed := 0
  spindle := 0
  containsArc := false
  containsRelative := false
  codes := {}

/-- The feed and spindle speed that a listing has put in effect so far, if it has written any. -/
structure Emitted (α : Type) where
  feed : Option α := none
  spindle : Option α := none

namespace Emitted

/-- Values that differ by less are the same speed. -/
def tolerance : α := 1e-6

/-- At the start of a program feed and spindle speed are zero. -/
def atStart : Emitted α := ⟨some 0, some 0⟩

/-- The value has to be written to take effect. -/
def differs (last : Option α) (value : α) : Bool :=
  last.all fun v => !(Scalar.abs (v - value) < tolerance)

/-- Whether a feed word is needed, and what is in effect after it. -/
def writeFeed (e : Emitted α) (feed : α) : Bool × Emitted α :=
  if differs e.feed feed then (true, { e with feed := some feed }) else (false, e)

/-- Whether a spindle word is needed, and what is in effect after it. -/
def writeSpindle (e : Emitted α) (speed : α) : Bool × Emitted α :=
  if differs e.spindle speed then (true, { e with spindle := some speed }) else (false, e)

omit [Scalar α] in
/-- A copied line puts its own values in effect. -/
def observe (_ : Emitted α) (feed speed : α) : Emitted α := ⟨some feed, some speed⟩

end Emitted

end PartProgram
