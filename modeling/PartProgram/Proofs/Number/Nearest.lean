import PartProgram.Proofs.Number.Rounding
import PartProgram.Proofs.Number.Unpacked

/-! # Floats nearest to rational numbers

The operations of the language cut a rational number off and remember in two bits what is needed to round
it. For numbers that are not too small, what comes out has a full mantissa and is a function of the rational
number alone: the nearest float.
-/

namespace PartProgram.Binary64

open Float.Model Float.Model.UnpackedFloat

/-! ### Mantissas with residual bits -/

/-- The mantissa is the integer part, and the residual bits tell where the fraction lies. -/
structure Represents (em : ExtendedMantissa) (v : ℚ) : Prop where
  lower : em.mantissa ≤ v
  upper : v < em.mantissa + 1
  roundBit : em.roundBit = true ↔ em.mantissa + 1 / 2 ≤ v
  stickyBit : em.stickyBit = true ↔ v ≠ em.mantissa ∧ v ≠ em.mantissa + 1 / 2

namespace Represents

variable {em : ExtendedMantissa} {v : ℚ}

theorem exact (m : ℕ) : Represents (.ofMantissaAndAccuracy m .exact) m := by
  constructor <;> simp [ExtendedMantissa.ofMantissaAndAccuracy]

/-- A quotient is represented by its whole part and the comparison of its remainder with half the divisor. -/
theorem fraction (a : ℕ) {b : ℕ} (hb : 0 < b) :
    Represents (.ofMantissaAndAccuracy (a / b) (accuracyOfFraction (a % b) b)) ((a : ℚ) / b) := by
  have hb' : (0 : ℚ) < b := by exact_mod_cast hb
  have hquotient : (a : ℚ) / b = (a / b : ℕ) + ((a % b : ℕ) : ℚ) / b := by
    have hparts : ((a % b : ℕ) : ℚ) + (a / b : ℕ) * b = a := by exact_mod_cast Nat.mod_add_div' a b
    field_simp
    linarith
  have hzero : ((a % b : ℕ) : ℚ) / b = 0 ↔ a % b = 0 := by
    rw [div_eq_zero_iff, or_iff_left hb'.ne']
    exact_mod_cast Iff.rfl
  have hhalf : ((a % b : ℕ) : ℚ) / b = 1 / 2 ↔ compare (2 * (a % b)) b = .eq := by
    rw [div_eq_div_iff hb'.ne' two_ne_zero, mul_comm, one_mul, Nat.compare_eq_eq]
    exact_mod_cast Iff.rfl
  have hle : 1 / 2 ≤ ((a % b : ℕ) : ℚ) / b ↔ compare (2 * (a % b)) b ≠ .lt := by
    rw [div_le_div_iff₀ two_pos hb', one_mul, mul_comm, ne_eq, Nat.compare_eq_lt, not_lt]
    exact_mod_cast Iff.rfl
  have hnonneg : 0 ≤ ((a % b : ℕ) : ℚ) / b := by positivity
  have hlt : ((a % b : ℕ) : ℚ) / b < 1 := (div_lt_one hb').mpr (by exact_mod_cast Nat.mod_lt a hb)
  have hmantissa : ∀ accuracy, (ExtendedMantissa.ofMantissaAndAccuracy (a / b) accuracy).mantissa = a / b := by
    intro accuracy
    rcases accuracy with _ | (_ | _ | _) <;> rfl
  constructor <;> rw [hmantissa, hquotient]
  case lower => linarith
  case upper => linarith
  case roundBit =>
    rw [add_le_add_iff_left, hle, accuracyOfFraction]
    split
    · rename_i h
      have hcompare : compare (2 * (a % b)) b = .lt := by
        rw [h, Nat.compare_eq_lt]
        exact hb
      rw [hcompare]
      simp [ExtendedMantissa.ofMantissaAndAccuracy]
    · cases compare (2 * (a % b)) b <;> simp [ExtendedMantissa.ofMantissaAndAccuracy]
  case stickyBit =>
    rw [ne_eq, add_eq_left, hzero, ne_eq, add_right_inj, hhalf, accuracyOfFraction]
    split
    · rename_i h
      simp [h, ExtendedMantissa.ofMantissaAndAccuracy]
    · rename_i h
      cases compare (2 * (a % b)) b <;> simp [ExtendedMantissa.ofMantissaAndAccuracy, h]

theorem shiftRightOne (h : Represents em v) : Represents em.shiftRightOne (v / 2) := by
  obtain ⟨hlower, hupper, hround, hsticky⟩ := h
  have hparts : (em.mantissa : ℚ) = 2 * (em.mantissa / 2 : ℕ) + (em.mantissa % 2 : ℕ) := by
    exact_mod_cast (Nat.div_add_mod em.mantissa 2).symm
  have hrest : em.shiftRightOne.stickyBit = true ↔ v ≠ em.mantissa := by
    rw [ExtendedMantissa.shiftRightOne, Bool.or_eq_true, hround, hsticky]
    constructor
    · rintro (hhalf | ⟨hne, -⟩)
      · linarith
      · exact hne
    · intro hne
      by_cases hhalf : em.mantissa + 1 / 2 ≤ v
      · exact .inl hhalf
      · exact .inr ⟨hne, by linarith⟩
  have hround' : em.shiftRightOne.roundBit = (em.mantissa % 2 != 0) := rfl
  have hbit : em.mantissa % 2 = 0 ∨ em.mantissa % 2 = 1 := by omega
  constructor
  case lower =>
    change ((em.mantissa / 2 : ℕ) : ℚ) ≤ v / 2
    have hnonneg : (0 : ℚ) ≤ (em.mantissa % 2 : ℕ) := Nat.cast_nonneg _
    linarith
  case upper =>
    change v / 2 < ((em.mantissa / 2 : ℕ) : ℚ) + 1
    have hone : ((em.mantissa % 2 : ℕ) : ℚ) ≤ 1 := by exact_mod_cast (by omega : em.mantissa % 2 ≤ 1)
    linarith
  case roundBit =>
    rw [hround']
    change _ ↔ ((em.mantissa / 2 : ℕ) : ℚ) + 1 / 2 ≤ v / 2
    rcases hbit with hbit | hbit <;> rw [hbit] at hparts <;> push_cast at hparts <;> simp [hbit] <;> linarith
  case stickyBit =>
    rw [hrest]
    change _ ↔ v / 2 ≠ ((em.mantissa / 2 : ℕ) : ℚ) ∧ v / 2 ≠ ((em.mantissa / 2 : ℕ) : ℚ) + 1 / 2
    rcases hbit with hbit | hbit <;> rw [hbit] at hparts <;> push_cast at hparts
    · have hbelow : v / 2 ≠ ((em.mantissa / 2 : ℕ) : ℚ) + 1 / 2 := by
        intro heq
        linarith
      rw [and_iff_left hbelow, not_iff_not]
      constructor <;> intro heq <;> linarith
    · have habove : v / 2 ≠ ((em.mantissa / 2 : ℕ) : ℚ) := by
        intro heq
        linarith
      rw [and_iff_right habove, not_iff_not]
      constructor <;> intro heq <;> linarith

theorem shiftRight (h : Represents em v) (n : ℕ) : Represents (em >>> n) (v / 2 ^ n) := by
  change Represents (n.repeat ExtendedMantissa.shiftRightOne em) _
  induction n with
  | zero => simpa [Nat.repeat] using h
  | succ n ih =>
      have hstep := ih.shiftRightOne
      rwa [div_div, ← pow_succ] at hstep

/-- The mantissa is rounded as the number is. -/
theorem roundedMantissa_eq (h : Represents em v) : roundEven v = em.roundedMantissa := by
  obtain ⟨hlower, hupper, hround, hsticky⟩ := h
  obtain ⟨m, r, s⟩ := em
  simp only at hlower hupper hround hsticky
  rw [roundEven_eq_iff]
  cases r <;> cases s
  case false.false =>
    have hhalf : v < m + 1 / 2 := by simpa using hround
    have hv : v = m := by
      by_contra hne
      exact absurd (hsticky.mpr ⟨hne, hhalf.ne⟩) (by simp)
    change |v - ((m : ℕ) : ℤ)| < 1 / 2 ∨ _
    rw [Int.cast_natCast, hv, sub_self, abs_zero]
    exact .inl (by norm_num)
  case false.true =>
    have hhalf : v < m + 1 / 2 := by simpa using hround
    change |v - ((m : ℕ) : ℤ)| < 1 / 2 ∨ _
    rw [Int.cast_natCast, abs_of_nonneg (by linarith)]
    exact .inl (by linarith)
  case true.false =>
    have hhalf : m + 1 / 2 ≤ v := by simpa using hround
    have hv : v = m + 1 / 2 := by
      by_contra hne
      exact absurd (hsticky.mpr ⟨fun heq => by linarith, hne⟩) (by simp)
    change |v - ((m + m % 2 : ℕ) : ℤ)| < 1 / 2 ∨ |v - ((m + m % 2 : ℕ) : ℤ)| = 1 / 2 ∧ Even ((m + m % 2 : ℕ) : ℤ)
    have heven : Even (m + m % 2) := by
      rw [Nat.even_iff]
      omega
    refine .inr ⟨?_, by exact_mod_cast heven⟩
    rw [Int.cast_natCast, hv]
    rcases Nat.mod_two_eq_zero_or_one m with hm | hm <;> rw [hm] <;> norm_num [abs_of_pos, abs_of_neg]
  case true.true =>
    have hhalf : m + 1 / 2 ≤ v := by simpa using hround
    have hne : v ≠ m + 1 / 2 := (hsticky.mp rfl).2
    have hlt : m + 1 / 2 < v := lt_of_le_of_ne hhalf hne.symm
    change |v - ((m + 1 : ℕ) : ℤ)| < 1 / 2 ∨ _
    rw [Int.cast_natCast, Nat.cast_add, Nat.cast_one, abs_of_neg (by linarith)]
    exact .inl (by linarith)

end Represents

/-- A positive float is cut off to its whole part. -/
theorem roundToInt_eq_floor (m : ℕ) (e : ℤ) : roundToInt .positive m e = ⌊(m : ℚ) * 2 ^ e⌋ := by
  have hrep := (Represents.exact (m <<< (e - 0).toNat)).shiftRight (0 - (e - (e - 0).toNat)).toNat
  have hvalue : ((m <<< (e - 0).toNat : ℕ) : ℚ) / 2 ^ (0 - (e - (e - 0).toNat)).toNat = m * 2 ^ e := by
    rw [Nat.shiftLeft_eq]
    push_cast
    rcases le_total 0 e with he | he
    · lift e to ℕ using he
      simp
    · obtain ⟨k, rfl⟩ := Int.exists_eq_neg_ofNat he
      simp [div_eq_mul_inv]
  rw [hvalue] at hrep
  rw [eq_comm, Int.floor_eq_iff]
  exact ⟨by exact_mod_cast hrep.lower, by exact_mod_cast hrep.upper⟩

/-! ### Binary magnitudes -/

section

variable {q : ℚ} {k : ℤ}

theorem log_eq_iff (hq : 0 < q) : Int.log 2 q = k ↔ 2 ^ k ≤ q ∧ q < 2 ^ (k + 1) := by
  have hle := Int.zpow_le_iff_le_log (R := ℚ) Nat.one_lt_two (x := k) hq
  have hlt := Int.lt_zpow_iff_log_lt (R := ℚ) Nat.one_lt_two (x := k + 1) hq
  rw [Nat.cast_ofNat] at hle hlt
  rw [hle, hlt]
  omega

theorem two_zpow_log_le (hq : 0 < q) : 2 ^ Int.log 2 q ≤ q := ((log_eq_iff hq).mp rfl).1

theorem lt_two_zpow_log (hq : 0 < q) : q < 2 ^ (Int.log 2 q + 1) := ((log_eq_iff hq).mp rfl).2

theorem log_mul_two_zpow (hq : 0 < q) (k : ℤ) : Int.log 2 (q * 2 ^ k) = Int.log 2 q + k := by
  have hpow : (0 : ℚ) < 2 ^ k := by positivity
  have hne : (2 : ℚ) ≠ 0 := two_ne_zero
  rw [log_eq_iff (mul_pos hq hpow), zpow_add₀ hne]
  refine ⟨mul_le_mul_of_nonneg_right (two_zpow_log_le hq) hpow.le, ?_⟩
  rw [add_right_comm, zpow_add₀ hne]
  exact mul_lt_mul_of_pos_right (lt_two_zpow_log hq) hpow

/-- The mantissa of a number has its magnitude. -/
theorem totalExponent_eq {em : ExtendedMantissa} {e : ℤ} (hq : 0 < q) (h : Represents em (q / 2 ^ e))
    (hm : em.mantissa ≠ 0) : totalExponent em.mantissa e = Int.log 2 q + 1 := by
  have hv : 0 < q / 2 ^ e := by positivity
  have hlog : Int.log 2 (q / 2 ^ e) = em.mantissa.log2 := by
    obtain ⟨hlow, hhigh⟩ := (Nat.log2_eq_iff hm).mp rfl
    have hlow' : ((2 ^ em.mantissa.log2 : ℕ) : ℚ) ≤ em.mantissa := by exact_mod_cast hlow
    have hhigh' : (em.mantissa : ℚ) + 1 ≤ ((2 ^ (em.mantissa.log2 + 1) : ℕ) : ℚ) := by exact_mod_cast hhigh
    rw [log_eq_iff hv]
    constructor
    · rw [zpow_natCast]
      exact (by exact_mod_cast hlow' : (2 : ℚ) ^ em.mantissa.log2 ≤ em.mantissa).trans h.lower
    · have hup : ((2 : ℚ) ^ ((em.mantissa.log2 : ℤ) + 1)) = 2 ^ (em.mantissa.log2 + 1) := by
        exact_mod_cast rfl
      rw [hup]
      exact h.upper.trans_le (by exact_mod_cast hhigh')
  have hback : Int.log 2 q = em.mantissa.log2 + e := by
    rw [← hlog, ← log_mul_two_zpow hv, div_mul_cancel₀ q (by positivity)]
  rw [totalExponent, hback]
  ring

end

/-! ### The nearest float -/

/-- The exponent of the last bit of a full mantissa for the number. -/
def ulp (q : ℚ) : ℤ := Int.log 2 q - 52

/-- The number is positive and not too small for a full mantissa. -/
structure IsLarge (q : ℚ) : Prop where
  pos : 0 < q
  large : -1022 ≤ Int.log 2 q

/-- A full mantissa with its exponent is the number rounded to the last bit. -/
structure IsNearest (q : ℚ) (m : ℕ) (e : ℤ) : Prop where
  value : (m : ℚ) * 2 ^ e = roundEven (q / 2 ^ ulp q) * 2 ^ ulp q
  lower : 2 ^ 52 ≤ m
  upper : m < 2 ^ 53

section

variable {q : ℚ} {m : ℕ} {e : ℤ}

theorem IsLarge.targetExponent_eq (h : IsLarge q) :
    Format.binary64.targetExponent (Int.log 2 q + 1) = ulp q := by
  have hlarge := h.large
  rw [Format.targetExponent, mantissaBits_eq, minExponent_eq, ulp]
  omega

/-- A full mantissa for the number lies between these powers of two. -/
theorem IsLarge.div_ulp (h : IsLarge q) : 2 ^ 52 ≤ q / 2 ^ ulp q ∧ q / 2 ^ ulp q < 2 ^ 53 := by
  have hpow : (0 : ℚ) < 2 ^ ulp q := by positivity
  have hne : (2 : ℚ) ≠ 0 := two_ne_zero
  have hlow : (2 : ℚ) ^ (52 : ℕ) * 2 ^ ulp q = 2 ^ Int.log 2 q := by
    rw [← zpow_natCast, ← zpow_add₀ hne, ulp]
    congr 1
    push_cast
    ring
  have hhigh : (2 : ℚ) ^ (53 : ℕ) * 2 ^ ulp q = 2 ^ (Int.log 2 q + 1) := by
    rw [← zpow_natCast, ← zpow_add₀ hne, ulp]
    congr 1
    push_cast
    ring
  rw [le_div_iff₀ hpow, div_lt_iff₀ hpow, hlow, hhigh]
  exact ⟨two_zpow_log_le h.pos, lt_two_zpow_log h.pos⟩

theorem IsLarge.roundEven_bounds (h : IsLarge q) :
    2 ^ 52 ≤ roundEven (q / 2 ^ ulp q) ∧ roundEven (q / 2 ^ ulp q) ≤ 2 ^ 53 := by
  obtain ⟨hlow, hhigh⟩ := h.div_ulp
  exact ⟨le_roundEven (by exact_mod_cast hlow), roundEven_le (by exact_mod_cast hhigh.le)⟩

/-- A full mantissa at the last bit of the number stays there, and one that is `k` bits longer is shifted by `k`. -/
theorem IsLarge.targetExponent_ulp (h : IsLarge q) {r k : ℕ} (hlog : r.log2 = 52 + k) :
    Format.binary64.targetExponent (totalExponent r (ulp q)) = ulp q + k := by
  have hlarge := h.large
  rw [totalExponent, hlog, Format.targetExponent, mantissaBits_eq, minExponent_eq, ulp]
  omega

/-- A mantissa that stands for the number is shifted to its last bit. -/
theorem IsLarge.shiftToTargetExponent_eq (h : IsLarge q) {accuracy : Accuracy}
    (hrep : Represents (.ofMantissaAndAccuracy m accuracy) (q / 2 ^ e)) (hm : m ≠ 0) {n : ℕ} (hn : ulp q - e = n) :
    shiftToTargetExponent .binary64 m e accuracy =
      (ExtendedMantissa.ofMantissaAndAccuracy m accuracy >>> n, ulp q) := by
  have hmantissa : (ExtendedMantissa.ofMantissaAndAccuracy m accuracy).mantissa = m := by
    rcases accuracy with _ | (_ | _ | _) <;> rfl
  have htotal := totalExponent_eq h.pos hrep (by rwa [hmantissa])
  have hshift : (ulp q - e).toNat = n := by omega
  have hexponent : e + (n : ℤ) = ulp q := by omega
  rw [hmantissa] at htotal
  rw [shiftToTargetExponent, htotal, h.targetExponent_eq, shiftToExponent]
  simp only [hshift, hexponent]

/-- A number is rounded by the two bits that follow a full mantissa, and once more if that overflows. -/
theorem exists_roundWithAccuracy (h : IsLarge q) {accuracy : Accuracy}
    (hrep : Represents (.ofMantissaAndAccuracy m accuracy) (q / 2 ^ e)) (hm : m ≠ 0) (he : e ≤ ulp q)
    (s : UnpackedFloat.Sign) :
    ∃ m' e' hm', roundWithAccuracy .binary64 s m e accuracy = .finite s m' e' hm' ∧ IsNearest q m' e' := by
  obtain ⟨n, hn⟩ : ∃ n : ℕ, ulp q - e = n := Int.eq_ofNat_of_zero_le (by omega)
  have hshifted : q / 2 ^ e / 2 ^ n = q / 2 ^ ulp q := by
    rw [div_div, ← zpow_natCast, ← zpow_add₀ two_ne_zero]
    congr 2
    omega
  have hround := (hrep.shiftRight n).roundedMantissa_eq
  rw [hshifted] at hround
  obtain ⟨hlow, hhigh⟩ := h.roundEven_bounds
  rw [roundWithAccuracy, h.shiftToTargetExponent_eq hrep hm hn]
  simp only
  generalize (ExtendedMantissa.ofMantissaAndAccuracy m accuracy >>> n).roundedMantissa = r at *
  rw [hround] at hlow hhigh
  have hr : r ≠ 0 := by omega
  by_cases hfull : r < 2 ^ 53
  · -- the rounded mantissa fits
    have hlog : r.log2 = 52 := (Nat.log2_eq_iff hr).mpr ⟨by omega, hfull⟩
    have hsecond : shiftToTargetExponent .binary64 r (ulp q) .exact = (⟨r, false, false⟩, ulp q) := by
      rw [shiftToTargetExponent, h.targetExponent_ulp (k := 0) hlog, Nat.cast_zero, add_zero, shiftToExponent, sub_self]
      simp only [Int.toNat_zero, Nat.cast_zero, add_zero]
      rfl
    rw [hsecond, dif_neg hr]
    refine ⟨r, ulp q, Nat.pos_of_ne_zero hr, rfl, ?_, by omega, hfull⟩
    rw [hround, Int.cast_natCast]
  · -- it is a power of two that has one bit more
    obtain rfl : r = 2 ^ 53 := by omega
    have hlog : (2 ^ 53 : ℕ).log2 = 53 := Nat.log2_two_pow
    have hsecond : shiftToTargetExponent .binary64 (2 ^ 53) (ulp q) .exact = (⟨2 ^ 52, false, false⟩, ulp q + 1) := by
      rw [shiftToTargetExponent, h.targetExponent_ulp (k := 1) hlog, Nat.cast_one, shiftToExponent, add_sub_cancel_left]
      rfl
    rw [hsecond, dif_neg (by norm_num)]
    refine ⟨2 ^ 52, ulp q + 1, by norm_num, rfl, ?_, le_rfl, by norm_num⟩
    rw [hround, zpow_add₀ two_ne_zero]
    push_cast
    ring

namespace IsNearest

variable {m' : ℕ} {e' : ℤ}

theorem mantissa_pos (h : IsNearest q m e) : 0 < m := (Nat.two_pow_pos 52).trans_le h.lower

theorem log_eq (h : IsNearest q m e) : Int.log 2 ((m : ℚ) * 2 ^ e) = 52 + e := by
  have hm : (0 : ℚ) < m := by exact_mod_cast h.mantissa_pos
  have hlog : Int.log 2 (m : ℚ) = 52 := by
    have hlower : (2 : ℚ) ^ 52 ≤ m := by exact_mod_cast h.lower
    have hupper : (m : ℚ) < 2 ^ 53 := by exact_mod_cast h.upper
    rw [log_eq_iff hm]
    exact ⟨by exact_mod_cast hlower, by exact_mod_cast hupper⟩
  rw [log_mul_two_zpow hm, hlog]

/-- There is one nearest float. -/
theorem unique (h : IsNearest q m e) (h' : IsNearest q m' e') : m' = m ∧ e' = e := by
  have hvalue : (m' : ℚ) * 2 ^ e' = m * 2 ^ e := h'.value.trans h.value.symm
  have hexponent : e' = e := by
    have hlog := h'.log_eq
    rw [hvalue, h.log_eq] at hlog
    omega
  subst hexponent
  have hpow : (2 : ℚ) ^ e' ≠ 0 := by positivity
  exact ⟨by exact_mod_cast mul_right_cancel₀ hpow hvalue, rfl⟩

theorem exponent_bounds (h : IsNearest q m e) (hq : IsLarge q) : ulp q ≤ e ∧ e ≤ ulp q + 1 := by
  have hpow : (0 : ℚ) < 2 ^ ulp q := by positivity
  obtain ⟨hlow, hhigh⟩ := hq.roundEven_bounds
  have hlog := h.log_eq
  have hround : (0 : ℚ) < roundEven (q / 2 ^ ulp q) := by
    exact_mod_cast (by norm_num : (0 : ℤ) < 2 ^ 52).trans_le hlow
  rw [h.value, log_mul_two_zpow hround] at hlog
  have hlow' : (52 : ℤ) ≤ Int.log 2 (roundEven (q / 2 ^ ulp q) : ℚ) := by
    have hle := Int.zpow_le_iff_le_log (R := ℚ) Nat.one_lt_two (x := 52) hround
    exact hle.mp (by exact_mod_cast hlow)
  have hhigh' : Int.log 2 (roundEven (q / 2 ^ ulp q) : ℚ) < 54 := by
    have hlt := Int.lt_zpow_iff_log_lt (R := ℚ) Nat.one_lt_two (x := 54) hround
    exact hlt.mp (by exact_mod_cast hhigh.trans_lt (by norm_num))
  omega

/-- No float is nearer to the number. -/
theorem abs_sub_le (h : IsNearest q m e) (hq : IsLarge q) {k : ℕ} (hk : k < 2 ^ 53) (i : ℤ) :
    |(m : ℚ) * 2 ^ e - q| ≤ |(k : ℚ) * 2 ^ i - q| := by
  have hpow : (0 : ℚ) < 2 ^ ulp q := by positivity
  have hscale : ∀ v : ℚ, |v * 2 ^ ulp q - q| = |q / 2 ^ ulp q - v| * 2 ^ ulp q := by
    intro v
    rw [abs_sub_comm, ← abs_of_pos hpow, ← abs_mul, abs_of_pos hpow, sub_mul, div_mul_cancel₀ q hpow.ne']
  rw [h.value, hscale]
  by_cases hi : ulp q ≤ i
  · -- the float is a multiple of the last bit
    obtain ⟨n, hn⟩ : ∃ n : ℕ, i - ulp q = n := Int.eq_ofNat_of_zero_le (by omega)
    have hmultiple : (k : ℚ) * 2 ^ i = ((k * 2 ^ n : ℤ) : ℚ) * 2 ^ ulp q := by
      have hsum : i = n + ulp q := by omega
      rw [hsum, zpow_add₀ two_ne_zero, zpow_natCast]
      push_cast
      ring
    rw [hmultiple, hscale]
    exact mul_le_mul_of_nonneg_right (abs_sub_roundEven_le _ _) hpow.le
  · -- the float is below the least full mantissa
    have hbelow : (k : ℚ) * 2 ^ i ≤ ((2 ^ 52 : ℤ) : ℚ) * 2 ^ ulp q := by
      have hk' : (k : ℚ) ≤ 2 ^ (53 : ℤ) := by exact_mod_cast hk.le
      have hi' : (2 : ℚ) ^ i ≤ 2 ^ (ulp q - 1) := zpow_le_zpow_right₀ one_le_two (by omega)
      calc (k : ℚ) * 2 ^ i ≤ 2 ^ (53 : ℤ) * 2 ^ (ulp q - 1) :=
            mul_le_mul hk' hi' (by positivity) (by positivity)
        _ = ((2 ^ 52 : ℤ) : ℚ) * 2 ^ ulp q := by
            rw [zpow_sub_one₀ two_ne_zero]
            norm_num
            ring
    have hq' : ((2 ^ 52 : ℤ) : ℚ) * 2 ^ ulp q ≤ q := by
      rw [← le_div_iff₀ hpow]
      exact_mod_cast hq.div_ulp.1
    calc |q / 2 ^ ulp q - roundEven (q / 2 ^ ulp q)| * 2 ^ ulp q
        ≤ |q / 2 ^ ulp q - (2 ^ 52 : ℤ)| * 2 ^ ulp q :=
          mul_le_mul_of_nonneg_right (abs_sub_roundEven_le _ _) hpow.le
      _ = |((2 ^ 52 : ℤ) : ℚ) * 2 ^ ulp q - q| := (hscale _).symm
      _ = q - ((2 ^ 52 : ℤ) : ℚ) * 2 ^ ulp q := by
          rw [abs_sub_comm, abs_of_nonneg (sub_nonneg.mpr hq')]
      _ ≤ q - k * 2 ^ i := sub_le_sub_left hbelow q
      _ = |(k : ℚ) * 2 ^ i - q| := by
          rw [abs_sub_comm, abs_of_nonneg (sub_nonneg.mpr (hbelow.trans hq'))]

/-- A number that is a float is its own nearest. -/
theorem value_eq (h : IsNearest q m e) (hq : IsLarge q) {k : ℕ} (hk : k < 2 ^ 53) {i : ℤ} (hvalue : q = k * 2 ^ i) :
    (m : ℚ) * 2 ^ e = q := by
  have hle := h.abs_sub_le hq hk i
  rw [← hvalue, sub_self, abs_zero] at hle
  exact sub_eq_zero.mp (abs_nonpos_iff.mp hle)

end IsNearest

/-! ### Operations on positive floats -/

variable {m₁ m₂ : ℕ} {e₁ e₂ : ℤ}

theorem exists_mul (hq : IsLarge q) (hvalue : q = m₁ * 2 ^ e₁ * (m₂ * 2 ^ e₂)) (he : e₁ + e₂ ≤ ulp q) (h₁ : 0 < m₁)
    (h₂ : 0 < m₂) :
    ∃ m e hm, UnpackedFloat.mul .binary64 (.finite .positive m₁ e₁ h₁) (.finite .positive m₂ e₂ h₂) =
      .finite .positive m e hm ∧ IsNearest q m e := by
  refine exists_roundWithAccuracy hq ?_ (mul_pos h₁ h₂).ne' he _
  have hquotient : q / 2 ^ (e₁ + e₂) = ((m₁ * m₂ : ℕ) : ℚ) := by
    rw [hvalue, zpow_add₀ two_ne_zero, div_eq_iff (by positivity)]
    push_cast
    ring
  rw [hquotient]
  exact .exact _

theorem totalExponent_of_pos {k : ℕ} (hk : 0 < k) (i : ℤ) : totalExponent k i = Int.log 2 ((k : ℚ) * 2 ^ i) + 1 := by
  refine totalExponent_eq (by positivity) (?_ : Represents ⟨k, false, false⟩ _) hk.ne'
  rw [mul_div_cancel_right₀ _ (by positivity)]
  exact .exact k

/-- A quotient is cut off at a place that is not above its last bit. -/
theorem targetExponent_le_ulp (hq : IsLarge q) (hvalue : q = m₁ * 2 ^ e₁ / (m₂ * 2 ^ e₂)) (h₁ : 0 < m₁) (h₂ : 0 < m₂) :
    Format.binary64.targetExponent (totalExponent m₁ e₁ - totalExponent m₂ e₂) ≤ ulp q := by
  have ha : (0 : ℚ) < m₁ * 2 ^ e₁ := by positivity
  have hb : (0 : ℚ) < m₂ * 2 ^ e₂ := by positivity
  have hlow : (2 : ℚ) ^ (Int.log 2 ((m₁ : ℚ) * 2 ^ e₁) - (Int.log 2 ((m₂ : ℚ) * 2 ^ e₂) + 1)) ≤ q := by
    rw [hvalue, zpow_sub₀ two_ne_zero]
    exact div_le_div₀ ha.le (two_zpow_log_le ha) hb (lt_two_zpow_log hb).le
  have hlog := (Int.zpow_le_iff_le_log (R := ℚ) Nat.one_lt_two hq.pos).mp (by exact_mod_cast hlow)
  have hlarge := hq.large
  rw [totalExponent_of_pos h₁, totalExponent_of_pos h₂, Format.targetExponent, mantissaBits_eq, minExponent_eq, ulp]
  omega

theorem exists_div (hq : IsLarge q) (hvalue : q = m₁ * 2 ^ e₁ / (m₂ * 2 ^ e₂)) (h₁ : 0 < m₁) (h₂ : 0 < m₂) :
    ∃ m e hm, UnpackedFloat.div .binary64 (.finite .positive m₁ e₁ h₁) (.finite .positive m₂ e₂ h₂) =
      .finite .positive m e hm ∧ IsNearest q m e := by
  have htarget := targetExponent_le_ulp hq hvalue h₁ h₂
  rw [UnpackedFloat.div, divCore]
  generalize Format.binary64.targetExponent (totalExponent m₁ e₁ - totalExponent m₂ e₂) = target at *
  obtain ⟨n, hn⟩ : ∃ n : ℕ, e₁ - e₂ - min (e₁ - e₂) target = n := Int.eq_ofNat_of_zero_le (by omega)
  have hleast : min (e₁ - e₂) target ≤ ulp q := (min_le_right _ _).trans htarget
  have hshift : (e₁ - e₂ - min (e₁ - e₂) target).toNat = n := by omega
  simp only [hshift, Nat.shiftLeft_eq]
  generalize min (e₁ - e₂) target = t at *
  have hcut : q / 2 ^ t = ((m₁ * 2 ^ n : ℕ) : ℚ) / m₂ := by
    have hsum : e₁ = n + e₂ + t := by omega
    rw [hvalue, hsum, zpow_add₀ two_ne_zero, zpow_add₀ two_ne_zero, zpow_natCast]
    push_cast
    field_simp
  have hrep := Represents.fraction (m₁ * 2 ^ n) h₂
  rw [← hcut] at hrep
  refine exists_roundWithAccuracy hq hrep ?_ hleast _
  have hone : (1 : ℚ) ≤ ((m₁ * 2 ^ n : ℕ) : ℚ) / m₂ := by
    rw [← hcut, one_le_div (by positivity)]
    have hpow : (2 : ℚ) ^ t ≤ 2 ^ Int.log 2 q := zpow_le_zpow_right₀ one_le_two (by rw [ulp] at hleast; omega)
    exact hpow.trans (two_zpow_log_le hq.pos)
  have hle : m₂ ≤ m₁ * 2 ^ n := by
    rw [one_le_div (by exact_mod_cast h₂)] at hone
    exact_mod_cast hone
  exact (Nat.div_pos hle h₂).ne'

theorem isLarge_natCast {n : ℕ} (hn : 0 < n) : IsLarge n := by
  refine ⟨by exact_mod_cast hn, ?_⟩
  rw [Int.log_natCast]
  omega

theorem exists_ofNat {n : ℕ} (hn : 0 < n) :
    ∃ m e hm, UnpackedFloat.ofNat .binary64 n = .finite .positive m e hm ∧ IsNearest n m e := by
  have hq := isLarge_natCast hn
  have hcompare : compare (n : ℤ) 0 = .gt := by
    rw [Int.compare_eq_gt]
    exact_mod_cast hn
  have htotal : totalExponent n 0 = Int.log 2 (n : ℚ) + 1 := by
    refine totalExponent_eq hq.pos (?_ : Represents ⟨n, false, false⟩ _) hn.ne'
    rw [zpow_zero, div_one]
    exact .exact n
  simp only [UnpackedFloat.ofNat, UnpackedFloat.ofInt, UnpackedFloat.normalize, hcompare, UnpackedFloat.round, decreaseExponent,
    Int.toNat_natCast, htotal, hq.targetExponent_eq, zero_sub]
  obtain ⟨k, hk⟩ : ∃ k : ℕ, (-ulp (n : ℚ)).toNat = k := ⟨_, rfl⟩
  rw [hk, Nat.shiftLeft_eq]
  refine exists_roundWithAccuracy hq ?_ (by positivity) (by omega) _
  have hscaled : (n : ℚ) / 2 ^ (-(k : ℤ)) = ((n * 2 ^ k : ℕ) : ℚ) := by
    rw [zpow_neg, zpow_natCast, div_inv_eq_mul]
    push_cast
    ring
  rw [hscaled]
  exact .exact _

/-! ### Numerals -/

/-- The least power of ten that a printed number is divided by leaves a number that is large enough. -/
theorem isLarge_div {n k : ℕ} (hn : 0 < n) (hk : k ≤ 22) : IsLarge ((n : ℚ) / 10 ^ k) := by
  have hpos : (0 : ℚ) < (n : ℚ) / 10 ^ k := by positivity
  have hbound : (2 : ℚ) ^ (-80 : ℤ) ≤ n / 10 ^ k := by
    have hn' : (1 : ℚ) ≤ n := by exact_mod_cast hn
    have hten : (10 : ℚ) ^ k ≤ 10 ^ 22 := pow_le_pow_right₀ (by norm_num) hk
    calc (2 : ℚ) ^ (-80 : ℤ) ≤ 1 / 10 ^ 22 := by norm_num
      _ ≤ n / 10 ^ k := div_le_div₀ (by positivity) hn' (by positivity) hten
  have hlog := (Int.zpow_le_iff_le_log (R := ℚ) Nat.one_lt_two hpos).mp (by exact_mod_cast hbound)
  exact ⟨hpos, by omega⟩

/-- A positive float that has been taken apart. -/
structure IsPositive (x : Float) (q : ℚ) (m : ℕ) (e : ℤ) : Prop where
  pos : 0 < m
  unpack : x.toModel.unpack = .finite .positive m e pos
  value : (m : ℚ) * 2 ^ e = q

theorem isPositive_of_value {x : Float} (hm : 0 < m) (h : value x = .finite false m e) :
    IsPositive x (m * 2 ^ e) m e := by
  refine ⟨hm, ?_, rfl⟩
  rw [value_eq_ofUnpacked] at h
  generalize x.toModel.unpack = f at h
  cases f with
  | notANumber | infinity => simp [Value.ofUnpacked] at h
  | zero s =>
      simp only [Value.ofUnpacked, Value.finite.injEq] at h
      omega
  | finite s m' e' hm' =>
      obtain ⟨hs, rfl, rfl⟩ := Value.finite.inj h
      cases s with
      | negative => simp [isNegative] at hs
      | positive => rfl

/-- The value is the given number, which is not zero. -/
def Value.isNat : Value → ℕ → Bool
  | .finite false m e, n => 0 < m && m * 2 ^ e.toNat == n * 2 ^ (-e).toNat
  | _, _ => false

theorem exists_of_isNat {x : Float} {n : ℕ} (h : (value x).isNat n = true) : ∃ m e, IsPositive x n m e := by
  cases hvalue : value x with
  | undefined | infinite => simp [hvalue, Value.isNat] at h
  | finite negative m e =>
      cases negative with
      | true => simp [hvalue, Value.isNat] at h
      | false =>
          rw [hvalue, Value.isNat, Bool.and_eq_true, decide_eq_true_eq, beq_iff_eq] at h
          obtain ⟨hm, hscaled⟩ := h
          have hscaled' : (m : ℚ) * 2 ^ e.toNat = n * 2 ^ (-e).toNat := by exact_mod_cast hscaled
          have hsplit : e = (e.toNat : ℤ) - ((-e).toNat : ℤ) := by omega
          refine ⟨m, e, hm, (isPositive_of_value hm hvalue).unpack, ?_⟩
          rw [hsplit, zpow_sub₀ two_ne_zero, zpow_natCast, zpow_natCast, ← mul_div_assoc, hscaled',
            mul_div_cancel_right₀ _ (by positivity)]

/-- The powers of ten that the language divides by are exact. -/
theorem exists_powerOfTen {k : ℕ} (hk : k < Float.exactlyRepresentablePowersOfTen.size) :
    ∃ m e, IsPositive Float.exactlyRepresentablePowersOfTen[k] (10 ^ k) m e := by
  have hexact : ∀ k : Fin 23, (value Float.exactlyRepresentablePowersOfTen[k]).isNat (10 ^ k.val) = true := by
    decide +kernel
  obtain ⟨m, e, h⟩ := exists_of_isNat (hexact ⟨k, hk⟩)
  push_cast at h
  exact ⟨m, e, h⟩

/-- A small whole number is a float. -/
theorem exists_toFloat {n : ℕ} (hn : 0 < n) (hn' : n < 2 ^ 53) :
    ∃ m e, IsPositive n.toUInt64.toFloat n m e ∧ e = ulp n := by
  obtain ⟨m, e, hm, hfloat, hnear⟩ := exists_ofNat hn
  have hq := isLarge_natCast hn
  have hword : n.toUInt64.toNat = n := by
    rw [Nat.toUInt64_eq, UInt64.toNat_ofNat']
    exact Nat.mod_eq_of_lt (by omega)
  have hmodel : n.toUInt64.toFloat.toModel = Float.Model.pack (UnpackedFloat.ofNat .binary64 n.toUInt64.toNat) := rfl
  have hlog : Int.log 2 (n : ℚ) < 53 :=
    (Int.lt_zpow_iff_log_lt (R := ℚ) Nat.one_lt_two hq.pos).mp (by exact_mod_cast hn')
  have hnormal : IsNormal m e := by
    obtain ⟨hlow, hhigh⟩ := hnear.exponent_bounds hq
    have hlarge := hq.large
    rw [ulp] at hlow hhigh
    exact ⟨hnear.lower, hnear.upper, by omega, by omega⟩
  have hvalue : (m : ℚ) * 2 ^ e = n := hnear.value_eq hq hn' (i := 0) (by simp)
  have hulp : e = ulp n := by
    have hsame := hnear.log_eq
    rw [hvalue] at hsame
    rw [ulp]
    omega
  refine ⟨m, e, ⟨hm, ?_, hvalue⟩, hulp⟩
  rw [hmodel, hword, hfloat, hnormal.unpack_pack]

/-- The float is packed from the float that is nearest to the positive number. -/
def Packs (x : Float) (q : ℚ) : Prop :=
  ∃ m e hm, x.toModel = Float.Model.pack (.finite .positive m e hm) ∧ IsNearest q m e

theorem IsPositive.div {x y : Float} {a b : ℚ} (hx : IsPositive x a m₁ e₁) (hy : IsPositive y b m₂ e₂)
    (hq : IsLarge (a / b)) : Packs (x / y) (a / b) := by
  obtain ⟨m, e, hm, hdiv, hnear⟩ := exists_div hq (by rw [hx.value, hy.value]) hx.pos hy.pos
  refine ⟨m, e, hm, ?_, hnear⟩
  have hmodel : (x / y).toModel = Float.Model.pack (UnpackedFloat.div .binary64 x.toModel.unpack y.toModel.unpack) := rfl
  rw [hmodel, hx.unpack, hy.unpack, hdiv]

theorem IsPositive.mul {x y : Float} {a b : ℚ} (hx : IsPositive x a m₁ e₁) (hy : IsPositive y b m₂ e₂)
    (hq : IsLarge (a * b)) (he : e₁ + e₂ ≤ ulp (a * b)) : Packs (x * y) (a * b) := by
  obtain ⟨m, e, hm, hmul, hnear⟩ := exists_mul hq (by rw [hx.value, hy.value]) he hx.pos hy.pos
  refine ⟨m, e, hm, ?_, hnear⟩
  have hmodel : (x * y).toModel = Float.Model.pack (UnpackedFloat.mul .binary64 x.toModel.unpack y.toModel.unpack) := rfl
  rw [hmodel, hx.unpack, hy.unpack, hmul]

/-- The language reads a numeral with digits after the point. -/
theorem packs_ofScientific_true {n k : ℕ} (hn : 0 < n) (hk : k ≠ 0) (hk' : k ≤ 22) :
    Packs (Float.ofScientific n true k) (n / 10 ^ k) := by
  have hq := isLarge_div hn hk'
  rw [Float.ofScientific]
  split
  case isTrue h =>
    have hsize : k < Float.exactlyRepresentablePowersOfTen.size := by
      simp only [Float.exactlyRepresentablePowersOfTen, List.size_toArray, List.length_cons, List.length_nil]
      omega
    obtain ⟨m₁, e₁, hx, -⟩ := exists_toFloat hn h.1
    obtain ⟨m₂, e₂, hy⟩ := exists_powerOfTen hsize
    exact hx.div hy hq
  case isFalse h =>
    have hneg : (Int.negOfNat k : ℤ) = -k := by cases k <;> rfl
    have htop : ¬(-(k : ℤ) > 2 ^ Format.binary64.exponentBits) := by
      have hpow : (0 : ℤ) < 2 ^ Format.binary64.exponentBits := by positivity
      omega
    have hlow : ¬(-(k : ℤ) < -((2 ^ Format.binary64.exponentBits : ℤ) + n.log2)) := by
      have hpow : (2 ^ Format.binary64.exponentBits : ℤ) = 2048 := by norm_num
      rw [hpow]
      omega
    obtain ⟨m, e, hm, hdiv, hnear⟩ := @exists_div _ n (10 ^ k) 0 0 hq
      (by push_cast; simp) hn (Nat.pow_pos (by decide))
    refine ⟨m, e, hm, ?_, hnear⟩
    change Float.Model.pack (UnpackedFloat.ofScientific .binary64 n (Int.negOfNat k)) = _
    rw [hneg, UnpackedFloat.ofScientific, dif_neg hn.ne', if_neg htop, if_neg hlow, if_neg (by omega)]
    simp only [neg_neg, Int.toNat_natCast, hdiv]

/-- The language reads a whole numeral. -/
theorem packs_ofScientific_false {n : ℕ} (hn : 0 < n) : Packs (Float.ofScientific n false 0) n := by
  have hq := isLarge_natCast hn
  have hlog : 0 ≤ Int.log 2 (n : ℚ) := by
    rw [Int.log_natCast]
    omega
  rw [Float.ofScientific]
  split
  case isTrue h =>
    obtain ⟨m₁, e₁, hx, rfl⟩ := exists_toFloat hn h.1
    obtain ⟨m₂, e₂, hy⟩ := exists_powerOfTen (k := 0) (by decide)
    have hexponent : e₂ ≤ 0 := by
      have hm₂ : (1 : ℚ) ≤ m₂ := by exact_mod_cast hy.pos
      have hpow : (2 : ℚ) ^ e₂ ≤ 2 ^ (0 : ℤ) := by
        rw [zpow_zero, ← pow_zero (10 : ℚ), ← hy.value]
        exact le_mul_of_one_le_left (by positivity) hm₂
      exact (zpow_le_zpow_iff_right₀ one_lt_two).mp hpow
    have hone : (n : ℚ) * 10 ^ 0 = n := by rw [pow_zero, mul_one]
    have hmul := hx.mul hy (by rwa [hone]) (by rw [hone]; omega)
    rwa [hone] at hmul
  case isFalse h =>
    have htop : ¬((0 : ℤ) > 2 ^ Format.binary64.exponentBits) := by
      have hpow : (0 : ℤ) < 2 ^ Format.binary64.exponentBits := by positivity
      omega
    have hlow : ¬((0 : ℤ) < -((2 ^ Format.binary64.exponentBits : ℤ) + n.log2)) := by
      have hpow : (0 : ℤ) < 2 ^ Format.binary64.exponentBits := by positivity
      omega
    obtain ⟨m, e, hm, hmul, hnear⟩ := @exists_mul _ (n <<< 53) 1 (-53) 0 hq
      (by rw [Nat.shiftLeft_eq, zpow_neg]; push_cast; field_simp) (by rw [ulp]; omega)
      (by rw [Nat.shiftLeft_eq]; positivity) Nat.one_pos
    refine ⟨m, e, hm, ?_, hnear⟩
    change Float.Model.pack (UnpackedFloat.ofScientific .binary64 n 0) = _
    rw [UnpackedFloat.ofScientific, dif_neg hn.ne', if_neg htop, if_neg hlow, if_pos le_rfl]
    exact congrArg _ hmul

/-- The sign of a numeral. -/
def signOf (negative : Bool) : UnpackedFloat.Sign := if negative then .negative else .positive

theorem IsNearest.isNormal (h : IsNearest q m e) (hq : IsLarge q) (he : e ≤ 971) : IsNormal m e := by
  have hlarge := hq.large
  have hlow := (h.exponent_bounds hq).1
  rw [ulp] at hlow
  exact ⟨h.lower, h.upper, by omega, he⟩

/-- A numeral that is not zero is read as its magnitude, which is then negated. -/
theorem exists_ofDecimal_eq {d : Decimal} (hd : d.digits ≠ 0) {k : ℕ} (hexponent : d.exponent = -k) (hk : k ≤ 22) :
    ∃ x, Packs x ((d.digits : ℚ) / 10 ^ k) ∧ ofDecimal d = if d.negative then -x else x := by
  have hpos : 0 < d.digits := Nat.pos_of_ne_zero hd
  have hreach : decimalReach = 400 := rfl
  have hlow : (decide (d.digits = 0) || decide (d.exponent + (d.digits.log2 + 1) < -decimalReach)) = false := by
    rw [Bool.or_eq_false_iff, decide_eq_false_iff_not, decide_eq_false_iff_not]
    exact ⟨hd, by omega⟩
  have hhigh : ¬decimalReach < d.exponent := by omega
  simp only [ofDecimal, hlow, Bool.false_eq_true, if_false, if_neg hhigh]
  by_cases hk₀ : k = 0
  · have hzero : d.exponent = 0 := by omega
    rw [hk₀, pow_zero, div_one, hzero]
    exact ⟨_, packs_ofScientific_false hpos, rfl⟩
  · have hnegative : ¬0 ≤ d.exponent := by omega
    have hnat : (-d.exponent).toNat = k := by omega
    rw [if_neg hnegative, hnat]
    exact ⟨_, packs_ofScientific_true hpos hk₀ hk, rfl⟩

/-- A numeral that is not zero is read as the float that is nearest to it. -/
theorem toModel_ofDecimal {d : Decimal} (hd : d.digits ≠ 0) {k : ℕ} (hexponent : d.exponent = -k) (hk : k ≤ 22)
    (h : IsNearest ((d.digits : ℚ) / 10 ^ k) m e) (he : e ≤ 971) :
    (ofDecimal d).toModel = Float.Model.pack (.finite (signOf d.negative) m e h.mantissa_pos) := by
  have hnormal := h.isNormal (isLarge_div (Nat.pos_of_ne_zero hd) hk) he
  obtain ⟨x, ⟨m', e', hm', hx, hnear⟩, hread⟩ := exists_ofDecimal_eq hd hexponent hk
  obtain ⟨rfl, rfl⟩ := h.unique hnear
  rw [hread]
  cases hsign : d.negative with
  | false => exact hx
  | true =>
      have hmodel : (-x).toModel = Float.Model.pack x.toModel.unpack.neg := rfl
      rw [if_pos rfl, hmodel, hx, hnormal.unpack_pack]
      rfl

end

/-! ### Exact values -/

/-- The rational number that a finite float is. -/
def Value.toRat : Value → ℚ
  | .finite negative m e => (if negative then -1 else 1) * (m * 2 ^ e)
  | _ => 0

/-- The rational number that a finite float is; zero for any other. -/
def toRat (x : Float) : ℚ := (value x).toRat

end PartProgram.Binary64
