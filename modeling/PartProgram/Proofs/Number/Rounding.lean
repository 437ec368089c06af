import Mathlib
import PartProgram.Proofs.Number.Exact

/-! # Nearest integers

Rounding to the nearest integer, a half going to the even neighbour, is fixed by the distance to the integer
and by its parity. The quotient of two natural numbers and a mantissa with its residual bits are rounded in
this way.
-/

namespace PartProgram

section

variable {α : Type} [Field α] [LinearOrder α] [IsStrictOrderedRing α] [FloorRing α] {x y : α} {n : ℤ}

/-! ### Distance and parity -/

/-- Two integers less than one apart are the same. -/
theorem eq_of_abs_sub_lt_one {m n : ℤ} (h : |(m : α) - n| < 1) : m = n := by
  have hint : |m - n| < 1 := by exact_mod_cast h
  exact sub_eq_zero.mp (Int.abs_lt_one_iff.mp hint)

/-- A number goes to `n` if it is less than a half away, or a half if `n` is even. -/
theorem roundEven_eq_iff : roundEven x = n ↔ |x - n| < 1 / 2 ∨ |x - n| = 1 / 2 ∧ Even n := by
  constructor
  · rintro rfl
    exact roundEven_near x
  · intro h
    have htriangle : |(roundEven x : α) - n| ≤ |x - roundEven x| + |x - n| := by
      have hsplit : (roundEven x : α) - n = -(x - roundEven x) + (x - n) := by ring
      rw [hsplit]
      exact (abs_add_le _ _).trans (by rw [abs_neg])
    have hclose : |x - roundEven x| + |x - n| < 1 → roundEven x = n := fun hlt =>
      eq_of_abs_sub_lt_one (htriangle.trans_lt hlt)
    rcases h, roundEven_near x with ⟨hlt | ⟨heq, heven⟩, hlt' | ⟨heq', heven'⟩⟩
    · exact hclose (by linarith)
    · exact hclose (by linarith)
    · exact hclose (by linarith)
    · -- two even integers that are at most one apart
      have hone : |(roundEven x : α) - n| ≤ 1 := by linarith
      have hint : |roundEven x - n| ≤ 1 := by exact_mod_cast hone
      obtain ⟨a, ha⟩ := heven
      obtain ⟨b, hb⟩ := heven'
      rw [abs_le] at hint
      omega

theorem roundEven_neg (x : α) : roundEven (-x) = -roundEven x := by
  have hdistance : |-x - ((-roundEven x : ℤ) : α)| = |x - roundEven x| := by
    rw [Int.cast_neg, ← abs_neg]
    congr 1
    ring
  rw [roundEven_eq_iff, hdistance, even_neg]
  exact roundEven_near x

/-- No integer is nearer. -/
theorem abs_sub_roundEven_le (x : α) (k : ℤ) : |x - roundEven x| ≤ |x - k| := by
  by_contra hlt
  rw [not_le] at hlt
  have hhalf : |x - (roundEven x : α)| ≤ 1 / 2 := by
    rw [abs_sub_comm]
    exact abs_roundEven_sub_le x
  have hk : roundEven x = k := roundEven_eq_iff.mpr (.inl (hlt.trans_le hhalf))
  rw [hk] at hlt
  exact lt_irrefl _ hlt

/-- A number that is not farther from where `x` goes goes there too. -/
theorem roundEven_eq_of_abs_sub_le (h : |y - roundEven x| ≤ |x - roundEven x|) : roundEven y = roundEven x := by
  rw [roundEven_eq_iff]
  rcases roundEven_near x with hlt | ⟨heq, heven⟩
  · exact .inl (h.trans_lt hlt)
  · rcases h.lt_or_eq with hlt | hsame
    · exact .inl (hlt.trans_eq heq)
    · exact .inr ⟨hsame.trans heq, heven⟩

theorem le_roundEven (h : (n : α) ≤ x) : n ≤ roundEven x := by
  by_contra hlt
  have hbelow : (roundEven x : α) + 1 ≤ n := by exact_mod_cast not_le.mp hlt
  have hhalf := abs_roundEven_sub_le x
  rw [abs_le] at hhalf
  linarith

theorem roundEven_le (h : x ≤ n) : roundEven x ≤ n := by
  by_contra hlt
  have habove : (n : α) + 1 ≤ roundEven x := by exact_mod_cast not_le.mp hlt
  have hhalf := abs_roundEven_sub_le x
  rw [abs_le] at hhalf
  linarith

/-- A quotient of natural numbers is rounded by its remainder. -/
theorem roundHalfEven_eq (a : ℕ) {b : ℕ} (hb : 0 < b) : (roundHalfEven a b : ℤ) = roundEven ((a : α) / b) := by
  have hb' : (0 : α) < b := by exact_mod_cast hb
  have hlt : ((a % b : ℕ) : α) < b := by exact_mod_cast Nat.mod_lt a hb
  have hquotient : (a : α) / b = (a / b : ℕ) + ((a % b : ℕ) : α) / b := by
    rw [eq_comm, ← eq_sub_iff_add_eq', div_eq_iff hb'.ne', sub_mul, div_mul_cancel₀ _ hb'.ne', eq_sub_iff_add_eq]
    exact_mod_cast Nat.mod_add_div' a b
  have hdown : |(a : α) / b - ((a / b : ℕ) : ℤ)| = ((a % b : ℕ) : α) / b := by
    rw [hquotient, Int.cast_natCast, add_sub_cancel_left, abs_of_nonneg (by positivity)]
  have hup : |(a : α) / b - ((a / b + 1 : ℕ) : ℤ)| = 1 - ((a % b : ℕ) : α) / b := by
    have hfraction : ((a % b : ℕ) : α) / b ≤ 1 := (div_le_one hb').mpr hlt.le
    rw [hquotient, Int.cast_natCast, Nat.cast_add, Nat.cast_one, add_sub_add_left_eq_sub, abs_sub_comm,
      abs_of_nonneg (by linarith)]
  rw [roundHalfEven, eq_comm, roundEven_eq_iff]
  split
  · rename_i h
    rw [Nat.compare_eq_lt] at h
    rw [hdown, div_lt_iff₀ hb']
    have h' : 2 * ((a % b : ℕ) : α) < b := by exact_mod_cast h
    exact .inl (by linarith)
  · rename_i h
    rw [Nat.compare_eq_gt] at h
    have h' : (b : α) < 2 * ((a % b : ℕ) : α) := by exact_mod_cast h
    have hhalf : 1 / 2 < ((a % b : ℕ) : α) / b := by
      rw [lt_div_iff₀ hb']
      linarith
    rw [hup]
    exact .inl (by linarith)
  · rename_i h
    rw [Nat.compare_eq_eq] at h
    have h' : 2 * ((a % b : ℕ) : α) = b := by exact_mod_cast h
    have hhalf : ((a % b : ℕ) : α) / b = 1 / 2 := by
      rw [div_eq_iff hb'.ne']
      linarith
    split
    · rename_i heven
      rw [hdown, hhalf]
      exact .inr ⟨rfl, by exact_mod_cast Nat.even_iff.mpr heven⟩
    · rename_i hodd
      have heven : (a / b + 1) % 2 = 0 := by omega
      rw [hup, hhalf]
      exact .inr ⟨by norm_num, by exact_mod_cast Nat.even_iff.mpr heven⟩

end

end PartProgram
