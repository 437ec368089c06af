import Mathlib
import PartProgram.Number.Floating
import PartProgram.Proofs.Number.Nearest

/-! # Numbers in order

The numbers of a program are ordered as far as they are defined. Binary floating point has one value that
is not, and it differs from itself. Where a float stands in the order also says how it is counted: a finite
one that is not below one has a whole part.
-/

namespace PartProgram

/-- Numbers that equal themselves are ordered, and no others. -/
class Scalar.Ordered (α : Type) [Scalar α] : Prop where
  le_self : ∀ a : α, (a == a) = true → a ≤ a
  le_trans : ∀ a b c : α, a ≤ b → b ≤ c → a ≤ c
  le_of_lt : ∀ a b : α, a < b → a ≤ b
  le_of_not_lt : ∀ a b : α, (a == a) = true → (b == b) = true → ¬a < b → b ≤ a
  defined_of_le : ∀ a b : α, a ≤ b → (a == a) = true ∧ (b == b) = true

instance {α : Type} [Field α] [LinearOrder α] [IsStrictOrderedRing α] [FloorRing α] [PlaneFunctions α] :
    Scalar.Ordered α where
  le_self a _ := le_refl a
  le_trans _ _ _ := le_trans
  le_of_lt _ _ := le_of_lt
  le_of_not_lt _ _ _ _ := not_lt.mp
  defined_of_le _ _ _ := ⟨decide_eq_true rfl, decide_eq_true rfl⟩

namespace Binary64

open Float.Model

/-- Where a float stands in the order: sign and size class first, then the exponent, then the mantissa. An
undefined one stands nowhere. -/
def rank : UnpackedFloat → Option (ℤ ×ₗ ℤ ×ₗ ℤ)
  | .notANumber => none
  | .infinity .negative => some (toLex (-2, toLex (0, 0)))
  | .finite .negative m e _ => some (toLex (-1, toLex (-e, -m)))
  | .zero _ => some (toLex (0, toLex (0, 0)))
  | .finite .positive m e _ => some (toLex (1, toLex (e, m)))
  | .infinity .positive => some (toLex (2, toLex (0, 0)))

theorem unpacked_lt_iff (a b : UnpackedFloat) : a.lt b = true ↔ ∃ k ∈ rank a, ∃ l ∈ rank b, k < l := by
  rcases a with (_ | _) | _ | _ | ⟨_ | _, m, e, hm⟩ <;> rcases b with (_ | _) | _ | _ | ⟨_ | _, n, f, hn⟩ <;>
    simp [UnpackedFloat.lt, UnpackedFloat.compare, rank, Prod.Lex.toLex_lt_toLex, compare]
  -- two finite floats of one sign are compared by exponent and mantissa
  all_goals grind [compareOfLessAndEq, Ordering.then]

theorem unpacked_le_iff (a b : UnpackedFloat) : a.le b = true ↔ ∃ k ∈ rank a, ∃ l ∈ rank b, k ≤ l := by
  rcases a with (_ | _) | _ | _ | ⟨_ | _, m, e, hm⟩ <;> rcases b with (_ | _) | _ | _ | ⟨_ | _, n, f, hn⟩ <;>
    simp [UnpackedFloat.le, UnpackedFloat.compare, rank, Prod.Lex.toLex_le_toLex, compare]
  all_goals grind [compareOfLessAndEq, Ordering.then, Ordering.isLE, Ordering.isGE]

theorem unpacked_beq_self_iff (a : UnpackedFloat) : a.beq a = true ↔ ∃ k, k ∈ rank a := by
  rcases a with (_ | _) | _ | _ | ⟨_ | _, m, e, hm⟩ <;>
    simp [UnpackedFloat.beq, UnpackedFloat.compare, rank, compare, compareOfLessAndEq]

/-- Where a float stands in the order, read off its bits. -/
def standing (x : Float) : Option (ℤ ×ₗ ℤ ×ₗ ℤ) := rank x.toModel.unpack

variable (a b : Float)

theorem lt_iff : a < b ↔ ∃ k ∈ standing a, ∃ l ∈ standing b, k < l := by
  rw [standing, standing, ← unpacked_lt_iff]
  exact decide_eq_true_iff

theorem le_iff : a ≤ b ↔ ∃ k ∈ standing a, ∃ l ∈ standing b, k ≤ l := by
  rw [standing, standing, ← unpacked_le_iff]
  exact decide_eq_true_iff

theorem defined_iff : (a == a) = true ↔ ∃ k, k ∈ standing a := by
  rw [standing, ← unpacked_beq_self_iff]
  rfl

/-- A finite float that is not below one is positive, and the number that it stands for is not below one. -/
theorem exists_finite_of_one_le {x : Float} (hx : x.isFinite = true) (h : ¬x < Scalar.ofNat 1) :
    ∃ m e hm, x.toModel.unpack = .finite .positive m e hm ∧ (1 : ℚ) ≤ m * 2 ^ e := by
  have hone : standing (Scalar.ofNat 1) = some (toLex (1, toLex (-52, 2 ^ 52))) := by decide +kernel
  have hvalue := value_eq_ofUnpacked x
  have hlt := mt (lt_iff x (Scalar.ofNat 1)).mpr h
  rw [hone, standing] at hlt
  have hfinite : x.toModel.unpack.isFinite = true := hx
  generalize x.toModel.unpack = u at *
  match u with
  | .finite .positive m e hm =>
    refine ⟨m, e, hm, rfl, ?_⟩
    have hrank : (-52 : ℤ) < e ∨ (-52 : ℤ) = e ∧ 2 ^ 52 ≤ (m : ℤ) := by
      by_contra hcontra
      refine hlt ⟨_, rfl, _, rfl, ?_⟩
      rw [Prod.Lex.toLex_lt_toLex, Prod.Lex.toLex_lt_toLex]
      omega
    -- above the exponent of one a mantissa is full, so that a larger exponent is a larger number
    have hfull : 2 ^ 52 ≤ m := by
      rcases hrank with he | ⟨-, hm⟩
      · exact full_of_value_eq hvalue (by omega)
      · exact_mod_cast hm
    calc (1 : ℚ) = 2 ^ 52 * 2 ^ (-52 : ℤ) := by norm_num
      _ ≤ m * 2 ^ e := by
        gcongr
        · exact_mod_cast hfull
        · norm_num
        · omega
  | .finite .negative m e hm => exact absurd ⟨_, rfl, _, rfl, by simp [Prod.Lex.toLex_lt_toLex]⟩ hlt
  | .zero s => exact absurd ⟨_, rfl, _, rfl, by simp [Prod.Lex.toLex_lt_toLex]⟩ hlt
  | .infinity _ | .notANumber => simp [UnpackedFloat.isFinite] at hfinite

/-- Cut off after the point, a finite float that is not below one is still there. -/
theorem toNat_ne_zero {x : Float} (hx : x.isFinite = true) (h : ¬x < Scalar.ofNat 1) : Scalar.toNat x ≠ 0 := by
  obtain ⟨m, e, hm, hunpack, hone⟩ := exists_finite_of_one_le hx h
  have hfloor : 1 ≤ UnpackedFloat.roundToInt .positive m e := by
    rw [roundToInt_eq_floor]
    exact Int.le_floor.mpr (by exact_mod_cast hone)
  have hcount : Scalar.toNat x = (UInt64.ofNatClamp (UnpackedFloat.roundToInt .positive m e).toNat).toNat := by
    change (UInt64.ofNatClamp (UnpackedFloat.toInt 0 _ x.toModel.unpack).toNat).toNat = _
    rw [hunpack, UnpackedFloat.toInt]
  rw [hcount, UInt64.ofNatClamp]
  split
  · rw [UInt64.toNat_ofNatLT]
    omega
  · decide

end Binary64

open Binary64 in
/-- Binary floating point is ordered but for the undefined value. -/
instance : Scalar.Ordered Float where
  le_self a ha := by
    obtain ⟨k, hk⟩ := (defined_iff a).mp ha
    exact (le_iff a a).mpr ⟨k, hk, k, hk, le_rfl⟩
  le_trans a b c hab hbc := by
    obtain ⟨k, hk, l, hl, hkl⟩ := (le_iff a b).mp hab
    obtain ⟨l', hl', n, hn, hln⟩ := (le_iff b c).mp hbc
    obtain rfl : l = l' := Option.mem_unique hl hl'
    exact (le_iff a c).mpr ⟨k, hk, n, hn, hkl.trans hln⟩
  le_of_lt a b hab := by
    obtain ⟨k, hk, l, hl, hkl⟩ := (lt_iff a b).mp hab
    exact (le_iff a b).mpr ⟨k, hk, l, hl, hkl.le⟩
  le_of_not_lt a b ha hb hab := by
    obtain ⟨k, hk⟩ := (defined_iff a).mp ha
    obtain ⟨l, hl⟩ := (defined_iff b).mp hb
    refine (le_iff b a).mpr ⟨l, hl, k, hk, not_lt.mp fun hkl => hab ?_⟩
    exact (lt_iff a b).mpr ⟨k, hk, l, hl, hkl⟩
  defined_of_le a b hab := by
    obtain ⟨k, hk, l, hl, -⟩ := (le_iff a b).mp hab
    exact ⟨(defined_iff a).mpr ⟨k, hk⟩, (defined_iff b).mpr ⟨l, hl⟩⟩

end PartProgram
