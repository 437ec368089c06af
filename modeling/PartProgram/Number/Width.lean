/-!
The integers that fit a number of bits.
-/

namespace PartProgram

/-- `n` lies in `[0, 2 ^ bits)`. -/
def fitsUnsigned (bits : Nat) (n : Int) : Bool := 0 ≤ n && n < (Nat.pow 2 bits : Int)

/-- `n` lies in `[-2 ^ (bits - 1), 2 ^ (bits - 1))`. -/
def fitsSigned (bits : Nat) (n : Int) : Bool :=
  -(Nat.pow 2 (bits - 1) : Int) ≤ n && n < (Nat.pow 2 (bits - 1) : Int)

end PartProgram
