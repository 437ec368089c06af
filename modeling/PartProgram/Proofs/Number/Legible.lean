import PartProgram.Proofs.Number.Exact

/-! # Numbers that can be read again

What reading has to give back of a number that has been written: the number rounded to the last place, and
the codes of motions unchanged. Exact numbers are read back with any number of places.
-/

namespace PartProgram

namespace Scalar

section

variable {α : Type} [Scalar α]

/-- The number that stands in the text of a number with the given places. -/
def rounded (places : ℕ) (v : α) : α :=
  match ticks places v with
  | .count n => ofDecimal (.ofTicks places n)
  | .infinite | .undefined => v

variable (α)

/-- Finite numbers are written as counts of the last place. -/
class Printed : Prop where
  exists_ticks : ∀ (places : ℕ) (v : α), isFinite v = true → ∃ n, ticks places v = .count n

/-- The codes of motions are read as they are written. -/
class Coded : Prop where
  code?_toDigits : ∀ n < 4, ∀ letter, (⟨letter, Nat.toDigits 10 n⟩ : Word).code? α = some n

/-- Finite numbers that are written with the given places are read back as they have been rounded. -/
class Legible (places : ℕ) : Prop where
  number?_render : ∀ format : NumberFormat, format.decimalPlaces = places → ∀ v : α, isFinite v = true →
    ∀ letter, (⟨letter, (format.render v).toList⟩ : Word).number? = some (rounded places v)

end

/-! ### Exact numbers -/

variable {α : Type} [Field α] [LinearOrder α] [IsStrictOrderedRing α] [FloorRing α] [PlaneFunctions α]

theorem rounded_eq (places : ℕ) (v : α) : rounded places v = PartProgram.rounded places v := by
  have hdigits : (roundEven (v * 10 ^ places)).natAbs * 10 ^ 0 = (roundEven (v * 10 ^ places)).natAbs := by
    rw [pow_zero, mul_one]
  exact Decimal.value_of_ticks (α := α) (k := places) hdigits

instance {α : Type} [Field α] [LinearOrder α] [FloorRing α] [PlaneFunctions α] : Printed α where
  exists_ticks _ _ _ := ⟨_, rfl⟩

instance : Coded α where
  code?_toDigits _ hn := code?_toDigits (hn.trans (by norm_num))

instance (places : ℕ) : Legible α places where
  number?_render := by
    rintro format rfl v - letter
    rw [rounded_eq]
    exact format.number?_render_eq_rounded v letter

end Scalar

/-- The text of a finite number is the value of a word. -/
theorem NumberFormat.isValueChar_render {α : Type} [Scalar α] [Scalar.Printed α] (format : NumberFormat) {v : α}
    (hv : Scalar.isFinite v = true) : ∀ c ∈ (format.render v).toList, Word.isValueChar c := by
  obtain ⟨n, hn⟩ := Scalar.Printed.exists_ticks format.decimalPlaces v hv
  rw [render_of_ticks hn, String.toList_ofList]
  exact format.isValueChar_ofTicks n

end PartProgram
