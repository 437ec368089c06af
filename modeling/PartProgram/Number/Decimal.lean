/-!
Decimal numerals: the numbers that a text can write, kept exactly as written. A numeral is turned
into a coordinate only afterwards, by `Scalar.ofDecimal`.
-/

namespace PartProgram

/-- The number `digits · 10 ^ exponent`, negated when `negative`. Negative zero is a numeral of its
own. -/
structure Decimal where
  negative : Bool
  digits : Nat
  exponent : Int
  deriving DecidableEq, Repr

namespace Decimal

/-- The value of a run of decimal digits, most significant first. -/
def valueOf (cs : List Char) : Nat :=
  cs.foldl (fun n c => 10 * n + (c.toNat - '0'.toNat)) 0

/-- Splits an optional sign off; `true` means minus. -/
def splitSign : List Char → Bool × List Char
  | '-' :: cs => (true, cs)
  | '+' :: cs => (false, cs)
  | cs => (false, cs)

/-- What may stand after the digits: nothing, or an exponent with at least one digit. -/
def readExponent? : List Char → Option Int
  | [] => some 0
  | c :: cs =>
    if c = 'e' ∨ c = 'E' then
      let (negative, ds) := splitSign cs
      if ds.isEmpty || !ds.all Char.isDigit then none
      else some (if negative then -(valueOf ds : Int) else valueOf ds)
    else none

/-- The digits after an optional point, and the rest. -/
def splitFraction : List Char → List Char × List Char
  | '.' :: cs => (cs.takeWhile Char.isDigit, cs.dropWhile Char.isDigit)
  | cs => ([], cs)

/-- Reads a whole numeral: an optional sign, digits with at most one point among or around them
and at least one digit, and an optional exponent. -/
def read? (cs : List Char) : Option Decimal :=
  let (negative, cs) := splitSign cs
  let whole := cs.takeWhile Char.isDigit
  let (fraction, rest) := splitFraction (cs.dropWhile Char.isDigit)
  if whole.isEmpty && fraction.isEmpty then none
  else (readExponent? rest).map fun e =>
    { negative, digits := valueOf (whole ++ fraction), exponent := e - fraction.length }

end Decimal

/-- `num / den` rounded to the nearest integer, an exact half to the even neighbour. -/
def roundHalfEven (num den : Nat) : Nat :=
  let q := num / den
  match compare (2 * (num % den)) den with
  | .lt => q
  | .gt => q + 1
  | .eq => if q % 2 = 0 then q else q + 1

end PartProgram
