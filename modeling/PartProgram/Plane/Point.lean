import PartProgram.Number.Scalar

/-!
Points of the XY plane and tool positions in space.
-/

namespace PartProgram

/-- A position or displacement in the XY plane. -/
structure Point (α : Type) where
  x : α
  y : α
  deriving BEq, DecidableEq, Repr

/-- A position or displacement in space. -/
structure Position (α : Type) where
  x : α
  y : α
  z : α
  deriving BEq, DecidableEq, Repr

variable {α : Type} [Scalar α]

namespace Point

def origin : Point α := ⟨0, 0⟩

instance : Add (Point α) := ⟨fun p q => ⟨p.x + q.x, p.y + q.y⟩⟩

instance : Sub (Point α) := ⟨fun p q => ⟨p.x - q.x, p.y - q.y⟩⟩

def distance (p q : Point α) : α := Scalar.hypot (p.x - q.x) (p.y - q.y)

/-- The vector turned counter-clockwise about the origin. -/
def rotated (p : Point α) (degrees : α) : Point α :=
  let s := Scalar.sin (Scalar.toRadians degrees)
  let c := Scalar.cos (Scalar.toRadians degrees)
  ⟨p.x * c - p.y * s, p.x * s + p.y * c⟩

def scaled (p : Point α) (factor : α) : Point α := ⟨p.x * factor, p.y * factor⟩

end Point

namespace Position

def origin : Position α := ⟨0, 0, 0⟩

instance : Add (Position α) := ⟨fun p q => ⟨p.x + q.x, p.y + q.y, p.z + q.z⟩⟩

instance : Sub (Position α) := ⟨fun p q => ⟨p.x - q.x, p.y - q.y, p.z - q.z⟩⟩

/-- The shadow of the position on the XY plane. -/
def xy (p : Position α) : Point α := ⟨p.x, p.y⟩

end Position

end PartProgram
