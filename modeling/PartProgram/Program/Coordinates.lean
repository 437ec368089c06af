import PartProgram.Plane.Point

/-!
The positions that a program reaches, in the order of execution, for picking a line or a figure.
-/

namespace PartProgram

/-- A position and the line that reached it. -/
structure Coordinate (α : Type) where
  line : Nat
  figure : Option Nat
  position : Point α
  /-- The position is the centre of an arc and not on the path. -/
  isCenter : Bool

/-- Where a position found by a search comes from. -/
inductive HitSource where
  | program
  | landmark
  deriving DecidableEq, Repr

/-- A position found by a search. -/
structure Hit (α : Type) where
  line : Nat
  figure : Option Nat
  position : Point α
  distance : α
  source : HitSource

abbrev Coordinates (α : Type) := List (Coordinate α)

namespace Coordinates

variable {α : Type} [Scalar α]

/-- The better of the best hit so far and another; a tie keeps the earlier. -/
def closer (best : Option (Hit α)) (hit : Hit α) : Option (Hit α) :=
  match best with
  | none => some hit
  | some b => if hit.distance < b.distance then some hit else some b

/-- The position nearest to a point, the earliest of equally near ones. -/
def nearest (cs : Coordinates α) (point : Point α) (source : HitSource) : Option (Hit α) :=
  cs.foldl (fun best c =>
    closer best ⟨c.line, c.figure, c.position, c.position.distance point, source⟩) none

/-- All positions moved by the same vector. -/
def moved (cs : Coordinates α) (shift : Point α) : Coordinates α :=
  cs.map fun c => { c with position := c.position + shift }

omit [Scalar α]

/-- The lines of the first and the last position in the first unbroken run of a figure. -/
def figureLines? (cs : Coordinates α) (figure : Nat) : Option (Nat × Nat) :=
  let run := (cs.dropWhile (·.figure != some figure)).takeWhile (·.figure == some figure)
  match run.head?, run.getLast? with
  | some first, some last => some (first.line, last.line)
  | _, _ => none

/-- The first path position of a line. -/
def ofLine? (cs : Coordinates α) (line : Nat) : Option (Coordinate α) :=
  cs.find? fun c => c.line == line && !c.isCenter

end Coordinates

end PartProgram
