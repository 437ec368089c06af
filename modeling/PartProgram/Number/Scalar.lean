import PartProgram.Number.Decimal
import PartProgram.Number.Width

/-!
The numbers that coordinates are made of. Everything about paths is written over a `Scalar`, so the
same definitions run in binary floating point and can be reasoned about over exact numbers. Only
what the path rules use is asked for: field operations, order, rounding, and the five functions of
plane geometry.
-/

namespace PartProgram

/-- A number counted in units of its last written decimal place. -/
inductive Ticks where
  | count (n : Int)
  | infinite
  | undefined
  deriving DecidableEq, Repr

class Scalar (α : Type) extends Add α, Sub α, Mul α, Div α, Neg α, LT α, LE α, BEq α where
  decidableLT : DecidableLT α
  decidableLE : DecidableLE α
  ofNat : Nat → α
  /-- The number a numeral stands for, rounded if `α` is not exact. -/
  ofDecimal : Decimal → α
  /-- An ordinary number, neither infinite nor undefined. -/
  isFinite : α → Bool
  floor : α → α
  ceil : α → α
  /-- The nearest integer, a half going away from zero. -/
  round : α → α
  /-- `modulo x m` is the remainder of `x` in `[0, m)`, for positive `m`. -/
  modulo : α → α → α
  /-- The integer part of a positive number; zero for any other. -/
  toNat : α → Nat
  /-- The multiple of `10 ^ -places` nearest to the number, a tie going to the even one. -/
  ticks : (places : Nat) → α → Ticks
  /-- The shortest decimal text that stands for the number. -/
  text : α → String
  pi : α
  sin : α → α
  cos : α → α
  asin : α → α
  /-- `atan2 y x` is the direction of the point `(x, y)` in radians. -/
  atan2 : α → α → α
  /-- `hypot x y` is the length of the vector `(x, y)`. -/
  hypot : α → α → α

namespace Scalar

attribute [reducible, instance] Scalar.decidableLT Scalar.decidableLE

instance (priority := low) {α : Type} [Scalar α] (n : Nat) : OfNat α n := ⟨Scalar.ofNat n⟩

instance (priority := low) {α : Type} [Scalar α] : OfScientific α where
  ofScientific digits small exponent :=
    Scalar.ofDecimal ⟨false, digits, if small then -(exponent : Int) else exponent⟩

instance (priority := low) {α : Type} [Scalar α] : Inhabited α := ⟨0⟩

variable {α : Type} [Scalar α]

def abs (x : α) : α := if x < 0 then -x else x

/-- The smaller of two numbers; an undefined one does not count. -/
def min (a b : α) : α := if a == a then (if b < a then b else a) else b

/-- The larger of two numbers; an undefined one does not count. -/
def max (a b : α) : α := if a == a then (if a < b then b else a) else b

/-- `x` moved into `[lo, hi]`. -/
def clamp (lo hi x : α) : α := if x < lo then lo else if hi < x then hi else x

def toRadians (degrees : α) : α := degrees * (pi / 180)

def toDegrees (radians : α) : α := radians * (180 / pi)

/-- `acc · base ^ n` by repeated squaring, the lowest bit of `n` first. -/
def powerOnto (acc base : α) (n : Nat) : α :=
  if n = 0 then acc
  else powerOnto (if n % 2 = 1 then acc * base else acc) (base * base) (n / 2)
termination_by n

/-- `10 ^ places`. Where numbers are rounded, every product on the way is. -/
def scale (places : Nat) : α := powerOnto 1 10 places

/-- The whole number that `x` is, when it is one below `2 ^ 32`. -/
def code? (x : α) : Option Nat :=
  let n := toNat x
  if (ofNat n : α) == x && fitsUnsigned 32 n then some n else none

end Scalar

end PartProgram
