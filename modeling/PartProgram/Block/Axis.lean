/-!
The positional axes of a machine and the values written for them on one line.
-/

namespace PartProgram

inductive Axis where
  | x | y | z | a | b | c | u | v | w
  deriving DecidableEq, Repr

namespace Axis

/-- The order in which axis words are written. -/
def all : List Axis := [x, y, z, a, b, c, u, v, w]

theorem mem_all (axis : Axis) : axis ∈ all := by cases axis <;> decide

def letter : Axis → Char
  | x => 'X' | y => 'Y' | z => 'Z'
  | a => 'A' | b => 'B' | c => 'C'
  | u => 'U' | v => 'V' | w => 'W'

def ofLetter? (c : Char) : Option Axis := all.find? (·.letter == c)

end Axis

/-- The value written for each axis. An axis that is not written is not at zero. -/
structure AxisWords (α : Type) where
  /-- The value written for one axis. -/
  get : Axis → Option α

namespace AxisWords

variable {α : Type}

def none : AxisWords α := ⟨fun _ => .none⟩

def set (words : AxisWords α) (axis : Axis) (value : Option α) : AxisWords α :=
  ⟨fun other => if other = axis then value else words.get other⟩

/-- The written axes with their values, in the order of writing. -/
def toList (words : AxisWords α) : List (Axis × α) :=
  Axis.all.filterMap fun axis => (words.get axis).map (axis, ·)

/-- Some axis is written. -/
def any (words : AxisWords α) : Bool := Axis.all.any fun axis => (words.get axis).isSome

@[simp]
theorem get_none (axis : Axis) : (none : AxisWords α).get axis = .none := rfl

@[simp]
theorem get_set_self (words : AxisWords α) (axis : Axis) (value : Option α) :
    (words.set axis value).get axis = value := by simp [set]

theorem get_set_of_ne (words : AxisWords α) {axis other : Axis} (value : Option α)
    (h : other ≠ axis) : (words.set axis value).get other = words.get other := by simp [set, h]

@[ext]
theorem ext {v w : AxisWords α} (h : ∀ axis, v.get axis = w.get axis) : v = w := by
  cases v; cases w; congr; exact funext h

end AxisWords

end PartProgram
