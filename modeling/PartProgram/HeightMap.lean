import PartProgram.Number.Width
import PartProgram.Plane.Point

/-!
Probed surfaces. A height map is a rectangular grid of heights; between the grid points the surface
is bilinear, and beyond its edges it goes on at the height of the edge.
-/

namespace PartProgram

/-- What following a surface needs to know of it. -/
structure Surface (α : Type) where
  heightAt : (x y : α) → α
  /-- Moves are cut to this length before they are corrected. -/
  cellSize : α

/-- A grid of heights, row by row from the bottom. -/
structure HeightMap (α : Type) where
  min : Point α
  max : Point α
  sizeX : Nat
  sizeY : Nat
  heights : Array α

/-- What can be wrong with a grid. -/
inductive GridFault where
  | tooSmall (sizeX sizeY : Nat)
  | tooLarge (sizeX sizeY : Nat)
  | wrongCount (expected sizeX sizeY actual : Nat)
  | corners
  | notFinite
  deriving DecidableEq, Repr

def GridFault.message : GridFault → String
  | tooSmall x y => s!"grid must be at least 2x2, got {x}x{y}"
  | tooLarge x y => s!"grid of {x}x{y} points is too large"
  | wrongCount n x y actual => s!"expected {n} heights for a {x}x{y} grid, got {actual}"
  | corners => "max corner must lie above and right of min corner"
  | notFinite => "heights must be finite"

namespace HeightMap

variable {α : Type} [Scalar α]

/-- The first fault of a grid. The number of points has to fit a machine word. -/
def fault? (m : HeightMap α) : Option GridFault :=
  let count := m.sizeX * m.sizeY
  if m.sizeX < 2 ∨ m.sizeY < 2 then some (.tooSmall m.sizeX m.sizeY)
  else if !fitsUnsigned 64 count then some (.tooLarge m.sizeX m.sizeY)
  else if m.heights.size ≠ count then some (.wrongCount count m.sizeX m.sizeY m.heights.size)
  else if m.max.x ≤ m.min.x ∨ m.max.y ≤ m.min.y then some .corners
  else if m.heights.any (!Scalar.isFinite ·) then some .notFinite
  else none

/-- The distance of neighbouring grid points along X and along Y. -/
def pitch (m : HeightMap α) : Point α :=
  ⟨(m.max.x - m.min.x) / Scalar.ofNat (m.sizeX - 1),
    (m.max.y - m.min.y) / Scalar.ofNat (m.sizeY - 1)⟩

/-- The probed height of a grid point. -/
def height? (m : HeightMap α) (ix iy : Nat) : Option α :=
  if ix < m.sizeX ∧ iy < m.sizeY then m.heights[iy * m.sizeX + ix]? else none

/-- The probed height of a grid point that is known to exist. -/
def heightAt (m : HeightMap α) (ix iy : Nat) : α := m.heights.getD (iy * m.sizeX + ix) 0

/-- The cell that a coordinate falls into and how far it lies inside, after moving it to the
grid. -/
def locate (value origin pitch : α) (size : Nat) : Nat × α :=
  let f := Scalar.clamp 0 (Scalar.ofNat (size - 1)) ((value - origin) / pitch)
  let cell := Nat.min (Scalar.toNat (Scalar.floor f)) (size - 2)
  (cell, f - Scalar.ofNat cell)

/-- The height of the surface over a point. -/
def interpolate (m : HeightMap α) (x y : α) : α :=
  let (ix, tx) := locate x m.min.x m.pitch.x m.sizeX
  let (iy, ty) := locate y m.min.y m.pitch.y m.sizeY
  let h₀₀ := m.heightAt ix iy
  let h₁₀ := m.heightAt (ix + 1) iy
  let h₀₁ := m.heightAt ix (iy + 1)
  let h₁₁ := m.heightAt (ix + 1) (iy + 1)
  let bottom := h₀₀ + (h₁₀ - h₀₀) * tx
  let top := h₀₁ + (h₁₁ - h₀₁) * tx
  bottom + (top - bottom) * ty

def cellSize (m : HeightMap α) : α := Scalar.min m.pitch.x m.pitch.y

def surface (m : HeightMap α) : Surface α := ⟨m.interpolate, m.cellSize⟩

end HeightMap

end PartProgram
