/-!
The length of a vector in binary floating point, to within one unit of the last place.
-/

namespace PartProgram.Binary64

/-- The square root of the sum of the squares of `a ≥ b > 0`, neither of them so large or so small
that a square leaves the range. A first root is improved by one step of Newton's method; its residue
is written so that the leading terms cancel exactly. -/
def rootOfSquares (a b : Float) : Float :=
  let root := (a * a + b * b).sqrt
  let residue :=
    if root ≤ 2 * b then
      let rest := root - b
      a * (2 * rest - a) + (rest - 2 * (a - b)) * rest
    else
      let rest := root - a
      2 * rest * (a - 2 * b) + ((4 * rest - b) * b + rest * rest)
  root - residue / (2 * root)

/-- `2 ^ e` for an exponent of normal floats. -/
def powerOfTwo (e : Int) : Float := Float.ofBits (UInt64.ofNat ((e + 1023).toNat * Nat.pow 2 52))

/-- Beside a magnitude, one that is smaller by this factor does not count. -/
def negligible : Float := powerOfTwo (-54)

/-- The length of a vector with the coordinates `a ≥ b ≥ 0`. Where squares would leave the range,
both coordinates are scaled by a power of two. -/
def lengthOf (a b : Float) : Float :=
  let factor := powerOfTwo 600
  if powerOfTwo 511 < a then
    if b ≤ a * negligible then a + b else rootOfSquares (a / factor) (b / factor) * factor
  else if b < powerOfTwo (-459) then
    if b / negligible ≤ a then a + b else rootOfSquares (a * factor) (b * factor) / factor
  else if b ≤ a * negligible then a + b
  else rootOfSquares a b

/-- The length of the vector `(x, y)`. It is infinite if a coordinate is, whatever the other. -/
def hypot (x y : Float) : Float :=
  if x.isInf || y.isInf then Float.ofBits 0x7FF0000000000000
  else if x.isNaN || y.isNaN then Float.ofBits 0x7FF8000000000000
  else if x.abs < y.abs then lengthOf y.abs x.abs
  else lengthOf x.abs y.abs

end PartProgram.Binary64
