import PartProgram.Number.Length
import PartProgram.Number.Scalar
import PartProgram.Number.Shortest

/-!
Binary floating point as the numbers that programs run on.
-/

namespace PartProgram

namespace Binary64

def ticks (places : Nat) (x : Float) : Ticks :=
  match value x with
  | .undefined => .undefined
  | .infinite _ => .infinite
  | .finite negative m e =>
    let n : Int := ticksOf m e places
    .count (if negative then -n else n)

end Binary64

instance : Scalar Float where
  decidableLT := fun a b => Float.decLt a b
  decidableLE := fun a b => Float.decLe a b
  ofNat n := Float.ofScientific n false 0
  ofDecimal := Binary64.ofDecimal
  isFinite := Float.isFinite
  floor := Binary64.toInteger .down
  ceil := Binary64.toInteger .up
  round := Binary64.toInteger .halfAway
  modulo := Binary64.modulo
  toNat x := x.toUInt64.toNat
  ticks := Binary64.ticks
  text := Shortest.plain
  pi := 3.141592653589793
  sin := Float.sin
  cos := Float.cos
  asin := Float.asin
  atan2 := Float.atan2
  hypot := Binary64.hypot

/-- Reads a number as command arguments and settings write it: a numeral, or one of the names of
the values that are not finite. -/
def readFloat? (text : String) : Option Float :=
  let cs := text.toList
  let (negative, name) := Decimal.splitSign cs
  match String.ofList (name.map Char.toLower) with
  | "inf" | "infinity" =>
    some (Float.ofBits (if negative then 0xFFF0000000000000 else 0x7FF0000000000000))
  | "nan" => some (Float.ofBits 0x7FF8000000000000)
  | _ => (Decimal.read? cs).map Binary64.ofDecimal

end PartProgram
