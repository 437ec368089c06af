import PartProgram.Json.Value
import PartProgram.Number.Binary64
import PartProgram.Number.Width

/-!
Numbers of a document. Whole numbers of a machine word are kept as they are. Of any other number the
leading digits that fit a word are taken, and scaled by a power of ten: at most one rounding for the
digits, and one for the scale. So the float is near the number that is written, but not always the
nearest.
-/

namespace PartProgram.Json

/-- Puts digits after the number `n` as long as a word of 64 bits holds it; gives also the digits
that are left. -/
def appendDigits (n : Nat) : List Char → Nat × List Char
  | [] => (n, [])
  | c :: cs =>
    let next := 10 * n + (c.toNat - '0'.toNat)
    if fitsUnsigned 64 next then appendDigits next cs else (n, c :: cs)

/-- The largest power of ten among the floats. -/
def topPower : Int := 308

/-- A power of ten that is a float. -/
def powerOfTen (e : Nat) : Float := Binary64.ofDecimal ⟨false, 1, e⟩

/-- `x · 10 ^ e`. A negative power beyond the floats is divided by in steps. -/
def scaled (x : Float) (e : Int) : Float :=
  if x == 0 then x
  else if topPower < e then Float.ofBits 0x7FF0000000000000
  else if 0 ≤ e then x * powerOfTen e.toNat
  else if -topPower ≤ e then x / powerOfTen (-e).toNat
  else scaled (x / powerOfTen topPower.toNat) (e + topPower)
termination_by (-e).toNat
decreasing_by simp only [topPower] at *; omega

/-- The float of a number by its parts: digits before and after the point, and the exponent. -/
def floatOf (whole fraction : List Char) (exponent : Int) : Float :=
  let (n, left) := appendDigits 0 whole
  let (n, unused) := appendDigits n fraction
  let places : Int := (fraction.length - unused.length : Nat)
  scaled (Binary64.ofDecimal ⟨false, n, 0⟩) (exponent + left.length - places)

/-- The integers that a number without fraction and exponent may be. -/
def fitsInteger (n : Int) : Bool := fitsSigned 64 n || fitsUnsigned 64 n

/-- Digits, at least one of them, and what follows them. -/
def digits? (cs : List Char) : Option (List Char × List Char) :=
  let ds := cs.takeWhile Char.isDigit
  if ds.isEmpty then none else some (ds, cs.dropWhile Char.isDigit)

/-- Digits after a point; none without a point. -/
def readFraction : List Char → Option (List Char × List Char)
  | '.' :: cs => digits? cs
  | cs => some ([], cs)

/-- An exponent after its mark; `none` in the result without a mark. -/
def readExponent : List Char → Option (Option Int × List Char)
  | [] => some (none, [])
  | c :: cs =>
    if c = 'e' || c = 'E' then
      let (negative, cs) := Decimal.splitSign cs
      (digits? cs).map fun (ds, cs) =>
        let n : Int := Decimal.valueOf ds
        (some (if negative then -n else n), cs)
    else some (none, c :: cs)

/-- Reads a number: no sign but minus, no leading zeros, and digits after a point and in an
exponent. Negative zero is a float. -/
def readNumber (cs : List Char) : Option (Json × List Char) := do
  let (negative, cs) := match cs with
    | '-' :: cs => (true, cs)
    | cs => (false, cs)
  let (whole, cs) ← digits? cs
  if whole.head? == some '0' && 1 < whole.length then failure
  let (fraction, cs) ← readFraction cs
  let (exponent, cs) ← readExponent cs
  let n : Int := Decimal.valueOf whole
  let n := if negative then -n else n
  if fraction.isEmpty && exponent.isNone && fitsInteger n && !(negative && n == 0) then
    return (integer n, cs)
  else
    let x := floatOf whole fraction (exponent.getD 0)
    return (float (if negative then -x else x), cs)

end PartProgram.Json
