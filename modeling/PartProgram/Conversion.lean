import PartProgram.Failure
import PartProgram.Session

/-!
Conversions that can be asked for: a program text in, a program text out.
-/

namespace PartProgram

inductive Conversion (α : Type) where
  /-- The program as it was read. -/
  | render
  | mirror (axis : MirrorAxis)
  | rotate (similarity : Similarity α)
  | stretch (xPercent yPercent : α)
  | offset (anchor : Anchor) (x y : α)
  | linearize
  | dropZ
  | heightMap (map : HeightMap α)

variable {α : Type} [Scalar α]

namespace Conversion

def checkPositive (argument : String) (value : α) : Except (Failure α) Unit :=
  if Scalar.isFinite value && decide (0 < value) then .ok () else .error (.notPositive argument value)

def checkFinite (argument : String) (value : α) : Except (Failure α) Unit :=
  if Scalar.isFinite value then .ok () else .error (.notFinite argument)

/-- Refuses numbers that make no sense. -/
def check : Conversion α → Except (Failure α) Unit
  | rotate s => do
    checkFinite "angle" s.degrees
    checkPositive "scale" s.scale
  | stretch x y => do
    checkPositive "x percent" x
    checkPositive "y percent" y
  | offset _ x y => do
    checkFinite "x" x
    checkFinite "y" y
  | _ => .ok ()

/-- Carries the conversion out on the loaded program. -/
def perform (c : Conversion α) (s : Session α) : Session α × String :=
  match c with
  | render => (s, s.text)
  | mirror axis => s.edit (.mirror axis)
  | rotate similarity => s.edit (.turn similarity)
  | stretch x y => s.edit (.stretch x y)
  | offset anchor x y => s.edit (.offset anchor ⟨x, y⟩)
  | linearize => s.linearize
  | dropZ => s.edit .dropZ
  | heightMap map => s.edit (.follow map.surface)

/-- Loads a program and converts it. The program is loaded even if the conversion is refused. -/
def run (c : Conversion α) (s : Session α) (text : String) :
    Session α × Except (Failure α) String :=
  let s := s.load text
  match c.check with
  | .error failure => (s, .error failure)
  | .ok () =>
    let (s, text) := c.perform s
    (s, .ok text)

end Conversion

end PartProgram
