import PartProgram.Number.Binary64

/-!
The fewest decimal digits that read back as a given binary value, and two ways of laying them out.
The digits are selected by exact integer arithmetic on the interval of reals that round to the value.
-/

namespace PartProgram.Shortest

/-- Compares `a · 10 ^ i` with `b · 2 ^ j`. -/
def compareScaled (a : Nat) (i : Int) (b : Nat) (j : Int) : Ordering :=
  compare (a * Nat.pow 10 i.toNat * Nat.pow 2 (-j).toNat)
    (b * Nat.pow 2 j.toNat * Nat.pow 10 (-i).toNat)

/-- `digits · 10 ^ exponent` lies among the reals that round to `mantissa · 2 ^ e`. The ends of that
interval are halfway to the neighbours and belong to it when the mantissa is even; below a power of
two the lower neighbour is half as far away. -/
def readsBack (mantissa : Nat) (e : Int) (digits : Nat) (exponent : Int) : Bool :=
  let narrow := mantissa = Nat.pow 2 52 && e ≠ -1074
  let low := compareScaled digits exponent (4 * mantissa - (if narrow then 1 else 2)) (e - 2)
  let high := compareScaled digits exponent (4 * mantissa + 2) (e - 2)
  let even := mantissa % 2 = 0
  (low == .gt || (even && low == .eq)) && (high == .lt || (even && high == .eq))

/-- What happens when two shortest decimals are equally near. -/
inductive Tie where
  | toEven
  | up
  deriving DecidableEq

/-- The least `k` with `mantissa · 2 ^ e < 10 ^ k`, searched upwards from a lower estimate. -/
def leadingPower (mantissa : Nat) (e : Int) : Int :=
  let bits := (mantissa.log2 : Int) + e
  let guess := bits * 30103 / 100000 - 1
  ((List.range 8).find? fun (i : Nat) => compareScaled 1 (guess + i) mantissa e == .gt).elim guess
    fun (i : Nat) => guess + i

/-- The point of the grid `10 ^ exponent` chosen for the value, if one of the two around it reads
back: the nearer one when both do. -/
def onGrid? (tie : Tie) (mantissa : Nat) (e exponent : Int) : Option Nat :=
  let below := (mantissa * Nat.pow 2 e.toNat * Nat.pow 10 (-exponent).toNat)
    / (Nat.pow 2 (-e).toNat * Nat.pow 10 exponent.toNat)
  let above := below + 1
  match readsBack mantissa e below exponent, readsBack mantissa e above exponent with
  | false, false => none
  | true, false => some below
  | false, true => some above
  | true, true =>
    match compareScaled (below + above) exponent mantissa (e + 1) with
    | .gt => some below
    | .lt => some above
    | .eq => if tie = .toEven ∧ below % 2 = 0 then some below else some above

/-- The digits and the exponent of the last one. Seventeen digits always suffice; the exact value
stands in for a search that would find nothing. -/
def digits (tie : Tie) (mantissa : Nat) (e : Int) : Nat × Int :=
  let k := leadingPower mantissa e
  let found := (List.range 17).findSome? fun (n : Nat) =>
    let exponent : Int := k - 1 - n
    (onGrid? tie mantissa e exponent).map (·, exponent)
  found.getD (mantissa * Nat.pow 2 e.toNat * Nat.pow 5 (-e).toNat, -((-e).toNat : Int))

/-- The digits without trailing zeros, as characters, and the place of the decimal point counted
from their start. -/
def significant (tie : Tie) (mantissa : Nat) (e : Int) : List Char × Int :=
  let (n, exponent) := digits tie mantissa e
  let cs := (toString n).toList
  let kept := (cs.reverse.dropWhile (· = '0')).reverse
  (kept, cs.length + exponent)

/-- The digits with the point in its place, and zeros where digits are missing. `unit` is what
follows a number without fraction. -/
def positional (unit : String) (cs : List Char) (point : Int) : String :=
  if point ≤ 0 then
    "0." ++ String.ofList (List.replicate (-point).toNat '0' ++ cs)
  else if cs.length ≤ point.toNat then
    String.ofList (cs ++ List.replicate (point.toNat - cs.length) '0') ++ unit
  else String.ofList (cs.take point.toNat) ++ "." ++ String.ofList (cs.drop point.toNat)

def signed (negative : Bool) (s : String) : String := if negative then "-" ++ s else s

/-- Plain text of a float: never an exponent, and no point on a whole number. -/
def plain (x : Float) : String :=
  match Binary64.value x with
  | .undefined => "NaN"
  | .infinite negative => signed negative "inf"
  | .finite negative m e =>
    if m = 0 then signed negative "0"
    else
      let (cs, point) := significant .up m e
      signed negative (positional "" cs point)

/-- Text of a float in a document of typed numbers: a whole number ends in `.0`, and magnitudes
below `10 ^ -5` or from `10 ^ 16` on are written with an exponent. `none` when not finite. -/
def typed? (x : Float) : Option String :=
  match Binary64.value x with
  | .undefined | .infinite _ => none
  | .finite negative m e =>
    if m = 0 then some (signed negative "0.0")
    else
      let (cs, point) := significant .toEven m e
      if -5 < point ∧ point ≤ 16 then some (signed negative (positional ".0" cs point))
      else
        let mantissa := match cs with
          | [d] => String.ofList [d]
          | d :: ds => String.ofList (d :: '.' :: ds)
          | [] => ""
        let power := point - 1
        let mark := if power < 0 then "e-" else "e+"
        some (signed negative (mantissa ++ mark ++ toString power.natAbs))

end PartProgram.Shortest
