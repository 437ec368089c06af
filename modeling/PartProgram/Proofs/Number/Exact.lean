import Mathlib.Algebra.Order.Floor.Ring
import Mathlib.Data.Rat.Floor
import Mathlib.Tactic.FieldSimp
import Mathlib.Tactic.Linarith
import Mathlib.Tactic.Positivity
import PartProgram.Proofs.Number.Rendering

/-! # Exact numbers

In an ordered field a numeral stands for its own value, and a number on the grid of the last written
place is written and read back without loss. The functions of plane geometry stay as they are given.
-/

namespace PartProgram

/-- The functions of plane geometry, and the short texts of numbers. -/
class PlaneFunctions (α : Type) where
  pi : α
  sin : α → α
  cos : α → α
  asin : α → α
  atan2 : α → α → α
  hypot : α → α → α
  text : α → String

/-- Plane functions for programs that have no arcs and are not turned. -/
@[reducible]
def PlaneFunctions.straight : PlaneFunctions ℚ where
  pi := 355 / 113
  sin _ := 0
  cos _ := 1
  asin _ := 0
  atan2 _ _ := 0
  hypot x y := x + y
  text _ := ""

/-- Plane functions that are right in the directions of the axes, and for vectors in them. -/
@[reducible]
def PlaneFunctions.axial : PlaneFunctions ℚ :=
  let π : ℚ := 355 / 113
  { pi := π
    sin r := if Int.fract (r / (2 * π)) = 1 / 4 then 1 else if Int.fract (r / (2 * π)) = 3 / 4 then -1 else 0
    cos r := if Int.fract (r / (2 * π)) = 0 then 1 else if Int.fract (r / (2 * π)) = 1 / 2 then -1 else 0
    asin x := x * (π / 2)
    atan2 y x := if 0 < y then π / 2 else if y < 0 then -(π / 2) else if x < 0 then π else 0
    hypot x y := |x| + |y|
    text _ := "" }

/-- The value of a numeral. -/
def Decimal.value {α : Type} [Field α] (d : Decimal) : α :=
  (if d.negative then -1 else 1) * d.digits * 10 ^ d.exponent

section

variable {α : Type} [Field α] [LinearOrder α] [IsStrictOrderedRing α] [FloorRing α]

/-- The nearest integer, a half going to the even neighbour. -/
def roundEven (x : α) : ℤ :=
  let f := ⌊x⌋
  if Int.fract x < 1 / 2 then f
  else if 1 / 2 < Int.fract x then f + 1
  else if f % 2 = 0 then f else f + 1

variable [PlaneFunctions α]

instance : Scalar α where
  decidableLT := inferInstance
  decidableLE := inferInstance
  beq x y := decide (x = y)
  ofNat n := n
  ofDecimal := Decimal.value
  isFinite _ := true
  floor x := ⌊x⌋
  ceil x := ⌈x⌉
  round x := if 0 ≤ x then ⌊x + 1 / 2⌋ else -⌊-x + 1 / 2⌋
  modulo x m := x - m * ⌊x / m⌋
  toNat x := ⌊x⌋.toNat
  ticks places x := .count (roundEven (x * 10 ^ places))
  text := PlaneFunctions.text
  pi := PlaneFunctions.pi
  sin := PlaneFunctions.sin
  cos := PlaneFunctions.cos
  asin := PlaneFunctions.asin
  atan2 := PlaneFunctions.atan2
  hypot := PlaneFunctions.hypot

end

/-- The number is a multiple of the last written place. -/
def OnGrid {α : Type} [Field α] (places : ℕ) (v : α) : Prop := ∃ n : ℤ, v * 10 ^ places = n

theorem onGrid_iff_den {places : ℕ} {v : ℚ} : OnGrid places v ↔ (v * 10 ^ places).den = 1 := by
  rw [Rat.den_eq_one_iff]
  constructor
  · rintro ⟨n, hn⟩
    rw [hn, Rat.num_intCast]
  · intro h
    exact ⟨_, h.symm⟩

instance {places : ℕ} {v : ℚ} : Decidable (OnGrid places v) := decidable_of_iff _ onGrid_iff_den.symm

variable {α : Type} [Field α] [LinearOrder α] [IsStrictOrderedRing α] [FloorRing α] {places : ℕ}

theorem roundEven_intCast (n : ℤ) : roundEven (n : α) = n := by
  simp [roundEven]

/-- Where a number stands between the integers next to it decides where it goes. -/
theorem roundEven_near (x : α) : |x - roundEven x| < 1 / 2 ∨ |x - roundEven x| = 1 / 2 ∧ Even (roundEven x) := by
  have hx : (⌊x⌋ : α) + Int.fract x = x := Int.floor_add_fract x
  have hnonneg : 0 ≤ Int.fract x := Int.fract_nonneg x
  have hlt : Int.fract x < 1 := Int.fract_lt_one x
  have hdown : x - (⌊x⌋ : ℤ) = Int.fract x := by linarith
  have hup : x - ((⌊x⌋ + 1 : ℤ) : α) = Int.fract x - 1 := by
    rw [Int.cast_add, Int.cast_one]
    linarith
  simp only [roundEven]
  split_ifs with hbelow habove heven
  · rw [hdown, abs_of_nonneg hnonneg]
    exact .inl hbelow
  · rw [hup, abs_of_neg (by linarith)]
    exact .inl (by linarith)
  · have hhalf : Int.fract x = 1 / 2 := le_antisymm (not_lt.mp habove) (not_lt.mp hbelow)
    rw [hdown, hhalf, abs_of_pos (by norm_num)]
    exact .inr ⟨rfl, Int.even_iff.mpr heven⟩
  · have hhalf : Int.fract x = 1 / 2 := le_antisymm (not_lt.mp habove) (not_lt.mp hbelow)
    rw [hup, hhalf, abs_of_neg (by norm_num)]
    refine .inr ⟨by norm_num, ?_⟩
    rw [Int.even_iff]
    omega

/-- The nearest integer is at most a half away. -/
theorem abs_roundEven_sub_le (x : α) : |(roundEven x : α) - x| ≤ 1 / 2 := by
  rw [abs_sub_comm]
  rcases roundEven_near x with hnear | ⟨hhalf, -⟩
  · exact hnear.le
  · exact hhalf.le

/-- The number rounded to the last written place. -/
def rounded (places : ℕ) (v : α) : α := roundEven (v * 10 ^ places) / 10 ^ places

theorem rounded_mul (v : α) : rounded places v * 10 ^ places = roundEven (v * 10 ^ places) :=
  div_mul_cancel₀ _ (by positivity)

theorem rounded_of_onGrid {v : α} (h : OnGrid places v) : rounded places v = v := by
  obtain ⟨n, hn⟩ := h
  have hten : (10 : α) ^ places ≠ 0 := by positivity
  rw [rounded, hn, roundEven_intCast, ← hn, mul_div_cancel_right₀ v hten]

/-- Rounding moves a number by at most half a unit of the last place. -/
theorem abs_rounded_sub_le (v : α) : |rounded places v - v| ≤ 1 / 2 / 10 ^ places := by
  have hten : (0 : α) < 10 ^ places := by positivity
  rw [le_div_iff₀ hten]
  calc |rounded places v - v| * 10 ^ places = |(roundEven (v * 10 ^ places) : α) - v * 10 ^ places| := by
        rw [← rounded_mul, ← sub_mul, abs_mul, abs_of_pos hten]
    _ ≤ 1 / 2 := abs_roundEven_sub_le _

/-- Two different numbers on the grid are at least one last place apart. -/
theorem OnGrid.le_abs_sub {v w : α} (hv : OnGrid places v) (hw : OnGrid places w) (hne : v ≠ w) :
    1 ≤ |v - w| * 10 ^ places := by
  obtain ⟨m, hm⟩ := hv
  obtain ⟨n, hn⟩ := hw
  have hten : (0 : α) < 10 ^ places := by positivity
  have hmn : m ≠ n := by
    rintro rfl
    exact hne (mul_right_cancel₀ hten.ne' (hm.trans hn.symm))
  have hdiff : |v - w| * 10 ^ places = ((|m - n| : ℤ) : α) := by
    rw [← abs_of_pos hten, ← abs_mul, sub_mul, hm, hn, Int.cast_abs, Int.cast_sub]
  rw [hdiff]
  exact_mod_cast Int.one_le_abs (sub_ne_zero.mpr hmn)

omit [LinearOrder α] [IsStrictOrderedRing α] [FloorRing α] in
theorem onGrid_zero : OnGrid places (0 : α) := ⟨0, by simp⟩

omit [LinearOrder α] [IsStrictOrderedRing α] [FloorRing α] in
theorem OnGrid.add {v w : α} (hv : OnGrid places v) (hw : OnGrid places w) : OnGrid places (v + w) := by
  obtain ⟨m, hm⟩ := hv
  obtain ⟨n, hn⟩ := hw
  exact ⟨m + n, by rw [add_mul, hm, hn, Int.cast_add]⟩

omit [FloorRing α] in
/-- A numeral has the value of the count of last places that it was made of. -/
theorem Decimal.value_of_ticks {n : ℤ} {m k j : ℕ} (hdigits : m * 10 ^ j = n.natAbs) :
    (Decimal.value ⟨decide (n < 0), m, -(k : ℤ)⟩ : α) = n / 10 ^ (k + j) := by
  have hmagnitude : (m : α) * 10 ^ j = |(n : α)| := by
    rw [← Int.cast_abs, ← Int.natCast_natAbs, ← hdigits]
    push_cast
    ring
  have hsign : (n : α) = (if n < 0 then -1 else 1) * |(n : α)| := by
    split
    · rename_i hneg
      rw [abs_of_neg (by exact_mod_cast hneg)]
      ring
    · rename_i hpos
      rw [abs_of_nonneg (by exact_mod_cast not_lt.mp hpos)]
      ring
  rw [hsign, ← hmagnitude, pow_add, Decimal.value, zpow_neg, zpow_natCast]
  simp only [decide_eq_true_eq]
  field_simp

variable [PlaneFunctions α]

omit [IsStrictOrderedRing α] in
/-- The speeds in effect at the start of a listing. -/
theorem emitted_atStart : (Emitted.atStart : Emitted α) = ⟨some 0, some 0⟩ := by
  have hzero : (Scalar.ofNat 0 : α) = 0 := Nat.cast_zero
  simp only [Emitted.atStart, OfNat.ofNat, hzero]

theorem Scalar.abs_eq (v : α) : Scalar.abs v = |v| := by
  have hzero : (Scalar.ofNat 0 : α) = 0 := Nat.cast_zero
  simp only [Scalar.abs, OfNat.ofNat, hzero]
  split
  · rename_i h
    exact (abs_of_neg h).symm
  · rename_i h
    exact (abs_of_nonneg (not_lt.mp h)).symm

/-- Speeds on a grid of at most five places are told apart. -/
theorem differs_iff (hplaces : places ≤ 5) {v w : α} (hv : OnGrid places v) (hw : OnGrid places w) :
    Emitted.differs (some v) w = true ↔ v ≠ w := by
  have htolerance : (Emitted.tolerance : α) = 1 / 10 ^ 6 := by
    change Decimal.value ⟨false, 1, -6⟩ = _
    simp [Decimal.value, zpow_neg]
  have hlt : Scalar.abs (v - w) < (Emitted.tolerance : α) ↔ v = w := by
    rw [Scalar.abs_eq, htolerance]
    refine ⟨?_, ?_⟩
    · intro hlt
      by_contra hne
      have hapart := hv.le_abs_sub hw hne
      have hpow : (10 : α) ^ places ≤ 10 ^ 5 := pow_le_pow_right₀ (by norm_num) hplaces
      have hsmall : |v - w| * 10 ^ places < 1 :=
        calc |v - w| * 10 ^ places ≤ |v - w| * 10 ^ 5 :=
              mul_le_mul_of_nonneg_left hpow (abs_nonneg _)
          _ < 1 / 10 ^ 6 * 10 ^ 5 := mul_lt_mul_of_pos_right hlt (by positivity)
          _ < 1 := by norm_num
      exact absurd hapart (not_le.mpr hsmall)
    · rintro rfl
      have hpos : (0 : α) < 1 / 10 ^ 6 := by positivity
      rw [sub_self, abs_zero]
      exact hpos
  simp only [Emitted.differs, Option.all_some, Bool.not_eq_true', decide_eq_false_iff_not]
  exact not_congr hlt

omit [IsStrictOrderedRing α] in
/-- Cut off after the point, a number that is not below one is still there. -/
theorem toNat_ne_zero {x : α} (h : ¬x < Scalar.ofNat 1) : Scalar.toNat x ≠ 0 := by
  have hone : (Scalar.ofNat 1 : α) = 1 := Nat.cast_one
  rw [hone, not_lt] at h
  have hfloor : 1 ≤ ⌊x⌋ := Int.le_floor.mpr (by exact_mod_cast h)
  change ⌊x⌋.toNat ≠ 0
  omega

/-! ### Counting in units of the last place -/

omit [IsStrictOrderedRing α] in
/-- Repeated squaring gives a power. -/
theorem powerOnto_eq (acc base : α) (n : ℕ) : Scalar.powerOnto acc base n = acc * base ^ n := by
  fun_induction Scalar.powerOnto acc base n with
  | case1 acc base => simp
  | case2 acc base n hn ih =>
      simp only [dite_eq_ite] at ih
      rw [ih, ← pow_two, ← pow_mul]
      have hdiv := Nat.div_add_mod n 2
      split
      · rename_i hodd
        rw [hodd] at hdiv
        conv_rhs => rw [← hdiv, pow_succ]
        ring
      · rename_i heven
        have hmod : n % 2 = 0 := by omega
        rw [hmod, Nat.add_zero] at hdiv
        rw [hdiv]

omit [IsStrictOrderedRing α] in
/-- The unit of the last written place. -/
theorem scale_eq : (Scalar.scale places : α) = 10 ^ places := by
  have hone : (Scalar.ofNat 1 : α) = 1 := Nat.cast_one
  have hten : (Scalar.ofNat 10 : α) = 10 := Nat.cast_ofNat
  change Scalar.powerOnto (Scalar.ofNat 1) (Scalar.ofNat 10) places = _
  rw [powerOnto_eq, hone, hten, one_mul]

omit [IsStrictOrderedRing α] in
theorem exists_round_eq (x : α) : ∃ n : ℤ, Scalar.round x = (n : α) := by
  by_cases h : 0 ≤ x
  · exact ⟨⌊x + 1 / 2⌋, if_pos h⟩
  · exact ⟨-⌊-x + 1 / 2⌋, by rw [Int.cast_neg]; exact if_neg h⟩

theorem round_intCast (n : ℤ) : Scalar.round (n : α) = n := by
  have hhalf : ⌊(1 / 2 : α)⌋ = 0 := by norm_num
  change (if 0 ≤ (n : α) then (⌊(n : α) + 1 / 2⌋ : α) else -(⌊-(n : α) + 1 / 2⌋ : α)) = n
  split
  · rw [Int.floor_intCast_add, hhalf, add_zero]
  · have hneg : ⌊-(n : α) + 1 / 2⌋ = -n := by
      rw [← Int.cast_neg, Int.floor_intCast_add, hhalf, add_zero]
    rw [hneg, Int.cast_neg, neg_neg]

/-- A displacement on the grid is counted without loss. -/
theorem round_mul_scale_div {v : α} (h : OnGrid places v) :
    Scalar.round (v * Scalar.scale places) / Scalar.scale places = v := by
  obtain ⟨n, hn⟩ := h
  have hten : (10 : α) ^ places ≠ 0 := by positivity
  rw [scale_eq]
  change Scalar.round (v * 10 ^ places) / _ = v
  rw [hn, round_intCast, ← hn]
  exact mul_div_cancel_right₀ v hten

/-- What is counted in units of the last place is on the grid. -/
theorem onGrid_intCast_div (n : ℤ) : OnGrid places ((n : α) / Scalar.scale places) := by
  have hten : (10 : α) ^ places ≠ 0 := by positivity
  rw [scale_eq]
  exact ⟨n, div_mul_cancel₀ (n : α) hten⟩

/-! ### Numbers as they are written -/

namespace NumberFormat

variable (format : NumberFormat)

omit [IsStrictOrderedRing α] in
theorem render_eq_ofTicks (v : α) :
    (format.render v).toList = format.ofTicks (roundEven (v * 10 ^ format.decimalPlaces)) := by
  rw [render_of_ticks rfl, String.toList_ofList]

/-- A count of units of the last place is read as the number that it stands for. -/
theorem number?_ofTicks {v : α} {n : ℤ} (hn : v * 10 ^ format.decimalPlaces = n) (letter : Char) :
    (⟨letter, format.ofTicks n⟩ : Word).number? = some v := by
  obtain ⟨m, k, j, hread, hplaces, hdigits⟩ := format.read?_ofTicks n
  have hten : (10 : α) ^ format.decimalPlaces ≠ 0 := by positivity
  have hvalue : (Decimal.value ⟨decide (n < 0), m, -(k : ℤ)⟩ : α) = v := by
    rw [Decimal.value_of_ticks hdigits, hplaces, ← hn, mul_div_cancel_right₀ v hten]
  have hfinite : Scalar.isFinite (Decimal.value ⟨decide (n < 0), m, -(k : ℤ)⟩ : α) = true := rfl
  rw [Word.number?, hread]
  change Option.filter _ (some (Decimal.value _)) = _
  rw [Option.filter_some, if_pos hfinite, hvalue]

/-- A number is read back as it has been rounded for its text. -/
theorem number?_render_eq_rounded (v : α) (letter : Char) :
    (⟨letter, (format.render v).toList⟩ : Word).number? = some (rounded format.decimalPlaces v) := by
  rw [render_eq_ofTicks]
  exact format.number?_ofTicks (rounded_mul v) letter

end NumberFormat

/-- The text of a small whole number is read as the code that it is. -/
theorem code?_toDigits {n : ℕ} (hn : n < 2 ^ 32) (letter : Char) :
    (⟨letter, Nat.toDigits 10 n⟩ : Word).code? α = some n := by
  have hnumeral : Decimal.IsNumeral (Nat.toDigits 10 n) (Nat.toDigits 10 n) [] := by
    refine ⟨by simp [Decimal.pointed], ?_, by simp [Nat.toDigits_ne_nil]⟩
    intro c hc
    rw [List.append_nil] at hc
    exact Nat.isDigit_of_mem_toDigits (by decide) (by decide) hc
  have hvalue : (Decimal.value ⟨false, n, 0⟩ : α) = n := by simp [Decimal.value]
  have hnat : Scalar.toNat (n : α) = n := by
    change (⌊(n : α)⌋).toNat = n
    simp
  rw [Word.code?, hnumeral.read?_of_splitSign hnumeral.splitSign_eq]
  simp only [List.append_nil, Decimal.valueOf_toDigits, List.length_nil]
  change Scalar.code? (Decimal.value ⟨false, n, 0⟩ : α) = some n
  have hsame : ((Scalar.ofNat n : α) == (n : α)) = true := decide_eq_true rfl
  have hfits : fitsUnsigned 32 n = true := by
    simp only [fitsUnsigned, Bool.and_eq_true, decide_eq_true_eq]
    refine ⟨by omega, ?_⟩
    exact_mod_cast hn
  rw [hvalue, Scalar.code?]
  simp only [hnat, hsame, hfits, Bool.and_self, if_true]

end PartProgram
