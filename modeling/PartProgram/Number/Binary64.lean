import PartProgram.Number.Decimal

/-!
Binary floating point seen as exact dyadic numbers. Every operation that the language does not
already define on `Float` is computed here on the integers that the bits stand for, and rounded
once at the end.
-/

namespace PartProgram.Binary64

/-- What the bits of a float stand for. A finite value is `mantissa · 2 ^ exponent`, negated when
`negative`; a zero keeps its sign. -/
inductive Value where
  | undefined
  | infinite (negative : Bool)
  | finite (negative : Bool) (mantissa : Nat) (exponent : Int)
  deriving DecidableEq, Repr

/-- Reads sign, exponent field and fraction field off a word. -/
def ofWord (w : Nat) : Value :=
  let negative := w / Nat.pow 2 63 % 2 == 1
  let field : Nat := w / Nat.pow 2 52 % Nat.pow 2 11
  let fraction : Nat := w % Nat.pow 2 52
  if field = 2047 then
    if fraction = 0 then .infinite negative else .undefined
  else if field = 0 then .finite negative fraction (-1074)
  else .finite negative (Nat.pow 2 52 + fraction) ((field : Int) - 1075)

def value (x : Float) : Value := ofWord x.toBits.toNat

/-- The float nearest to `mantissa · 2 ^ exponent`, negated when `negative`. A negative power of two
is written as a decimal, `2 ^ -k = 5 ^ k · 10 ^ -k`, because decimals are read correctly rounded. -/
def nearest (negative : Bool) (mantissa : Nat) (exponent : Int) : Float :=
  let magnitude :=
    if 0 ≤ exponent then Float.ofScientific (mantissa <<< exponent.toNat) false 0
    else
      let k := (-exponent).toNat
      Float.ofScientific (mantissa * Nat.pow 5 k) true k
  if negative then -magnitude else magnitude

/-- A power of ten that no float reaches, and below whose inverse every float is zero. -/
def decimalReach : Int := 400

/-- The float nearest to a numeral. A numeral far beyond the floats is decided by its size alone: it
has fewer digits than its binary size. -/
def ofDecimal (d : Decimal) : Float :=
  let magnitude :=
    if d.digits = 0 || d.exponent + (d.digits.log2 + 1) < -decimalReach then 0
    else if decimalReach < d.exponent then Float.ofBits 0x7FF0000000000000
    else if 0 ≤ d.exponent then Float.ofScientific d.digits false d.exponent.toNat
    else Float.ofScientific d.digits true (-d.exponent).toNat
  if d.negative then -magnitude else magnitude

/-- Ways of passing to an integer. -/
inductive Rounding where
  | down
  | up
  | halfAway

/-- The whole number that `mantissa / 2 ^ k` goes to, given the sign of the value. -/
def Rounding.apply (r : Rounding) (negative : Bool) (mantissa k : Nat) : Nat :=
  let whole := mantissa >>> k
  let rest := mantissa % Nat.pow 2 k
  let grows := match r with
    | .down => negative && rest ≠ 0
    | .up => !negative && rest ≠ 0
    | .halfAway => Nat.pow 2 k ≤ 2 * rest
  if grows then whole + 1 else whole

/-- Rounds to an integer; values without a fraction, infinities and undefined values stay. -/
def toInteger (r : Rounding) (x : Float) : Float :=
  match value x with
  | .finite negative m e =>
    if 0 ≤ e then x else nearest negative (r.apply negative m (-e).toNat) 0
  | _ => x

/-- The remainder of `x` in `[0, m)` for positive finite `m`: the exact remainder of the magnitudes
with the sign of `x`, moved up by `m` when it is negative. -/
def modulo (x m : Float) : Float :=
  match value x, value m with
  | .finite negative a i, .finite _ b j =>
    let low := if i ≤ j then i else j
    let r := nearest negative ((a <<< (i - low).toNat) % (b <<< (j - low).toNat)) low
    if r < 0 then r + m else r
  | _, _ => Float.ofBits 0x7FF8000000000000

/-- The multiple of `10 ^ -places` nearest to a magnitude, counted in that unit. -/
def ticksOf (mantissa : Nat) (exponent : Int) (places : Nat) : Nat :=
  if 0 ≤ exponent then (mantissa * Nat.pow 10 places) <<< exponent.toNat
  else roundHalfEven (mantissa * Nat.pow 10 places) (Nat.pow 2 (-exponent).toNat)

end PartProgram.Binary64
