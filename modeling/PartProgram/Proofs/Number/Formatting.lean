import PartProgram.Proofs.Block.Spelling
import PartProgram.Proofs.Number.Legible
import PartProgram.Proofs.Number.Nearest

/-! # Numbers that survive being printed

A finite float is printed as the nearest multiple of the last place. The float that is read back from the
text is not farther from this multiple than the one that was printed, so that it is printed the same.
-/

namespace PartProgram

namespace Binary64

variable {x : Float} {places : ℕ}

/-! ### What is printed -/

theorem ticksOf_eq (m : ℕ) (e : ℤ) (places : ℕ) : (ticksOf m e places : ℤ) = roundEven ((m : ℚ) * 2 ^ e * 10 ^ places) := by
  rw [ticksOf]
  split
  · rename_i he
    obtain ⟨k, rfl⟩ := Int.eq_ofNat_of_zero_le he
    have hwhole : (m : ℚ) * 2 ^ (k : ℤ) * 10 ^ places = ((m * 10 ^ places * 2 ^ k : ℕ) : ℤ) := by
      rw [zpow_natCast]
      push_cast
      ring
    rw [hwhole, roundEven_intCast, Int.toNat_natCast, Nat.shiftLeft_eq, Nat.pow_eq]
  · rename_i he
    obtain ⟨k, hk⟩ : ∃ k : ℕ, e = -(k : ℤ) := ⟨(-e).toNat, by omega⟩
    have hquotient : (m : ℚ) * 2 ^ e * 10 ^ places = ((m * 10 ^ places : ℕ) : ℚ) / ((2 ^ k : ℕ) : ℚ) := by
      rw [hk, zpow_neg, zpow_natCast]
      push_cast
      field_simp
    have hnat : (-e).toNat = k := by omega
    rw [hnat, hquotient, Nat.pow_eq, Nat.pow_eq]
    exact roundHalfEven_eq _ (Nat.two_pow_pos k)

/-- A finite float is counted as the multiple of the last place that is nearest to it. -/
theorem ticks_eq (hx : x.isFinite = true) (places : ℕ) :
    ticks places x = .count (roundEven (toRat x * 10 ^ places)) := by
  obtain ⟨negative, m, e, hvalue⟩ := (isFinite_iff x).mp hx
  rw [ticks, toRat, hvalue]
  simp only [Value.toRat, ticksOf_eq]
  cases negative with
  | false => simp
  | true => simp [roundEven_neg]

/-! ### What is read back -/

/-- Every number that is large enough has a nearest float, if its size is disregarded. -/
theorem exists_isNearest {n k : ℕ} (hn : 0 < n) (hk : k ≤ 22) : ∃ m e, IsNearest ((n : ℚ) / 10 ^ k) m e := by
  obtain ⟨m, e, -, -, hnear⟩ := @exists_div _ n (10 ^ k) 0 0 (isLarge_div hn hk)
    (by push_cast; simp) hn (Nat.pow_pos (by decide))
  exact ⟨m, e, hnear⟩

/-- The float that is nearest to the rounded magnitude of a float is in range, and it is rounded to the same
multiple of the last place. -/
theorem IsNearest.rounds_back {m₀ m n : ℕ} {e₀ e : ℤ} (h : IsNearest ((n : ℚ) / 10 ^ places) m e) (hn : 0 < n)
    (hplaces : places ≤ 22) (hm₀ : m₀ < 2 ^ 53) (he₀ : e₀ ≤ 971)
    (hround : (n : ℤ) = roundEven ((m₀ : ℚ) * 2 ^ e₀ * 10 ^ places)) :
    e ≤ 971 ∧ roundEven ((m : ℚ) * 2 ^ e * 10 ^ places) = n := by
  have hq := isLarge_div hn hplaces
  have hten : (0 : ℚ) < 10 ^ places := by positivity
  have hnearer := h.abs_sub_le hq hm₀ e₀
  have hscale : ∀ v : ℚ, |v - n / 10 ^ places| * 10 ^ places = |v * 10 ^ places - n| := by
    intro v
    rw [← abs_of_pos hten, ← abs_mul, abs_of_pos hten, sub_mul, div_mul_cancel₀ _ hten.ne']
  constructor
  · have hhalf : |(m₀ : ℚ) * 2 ^ e₀ - n / 10 ^ places| ≤ 1 / 2 := by
      have hround' := abs_roundEven_sub_le ((m₀ : ℚ) * 2 ^ e₀ * 10 ^ places)
      rw [← hround, abs_sub_comm] at hround'
      have hone : (1 : ℚ) ≤ 10 ^ places := one_le_pow₀ (by norm_num)
      calc |(m₀ : ℚ) * 2 ^ e₀ - n / 10 ^ places| ≤ |(m₀ : ℚ) * 2 ^ e₀ - n / 10 ^ places| * 10 ^ places :=
            le_mul_of_one_le_right (abs_nonneg _) hone
        _ ≤ 1 / 2 := by
            rw [hscale]
            exact_mod_cast hround'
    by_contra he
    have hunit : (1 : ℚ) < 2 ^ (971 : ℤ) := one_lt_zpow₀ one_lt_two (by norm_num)
    have hunit₀ : (2 : ℚ) ^ e₀ ≤ 2 ^ (971 : ℤ) := zpow_le_zpow_right₀ one_le_two he₀
    have hdouble : 2 * (2 : ℚ) ^ (971 : ℤ) ≤ 2 ^ e := by
      rw [← zpow_one_add₀ two_ne_zero]
      exact zpow_le_zpow_right₀ one_le_two (by omega)
    generalize (2 : ℚ) ^ (971 : ℤ) = unit at *
    have hm₀' : (m₀ : ℚ) ≤ 2 ^ 53 - 1 := by
      rw [le_sub_iff_add_le]
      exact_mod_cast hm₀
    have hm : (2 : ℚ) ^ 52 ≤ m := by exact_mod_cast h.lower
    have hbelow : (m₀ : ℚ) * 2 ^ e₀ ≤ (2 ^ 53 - 1) * unit := mul_le_mul hm₀' hunit₀ (by positivity) (by norm_num)
    have habove : 2 ^ 52 * (2 * unit) ≤ (m : ℚ) * 2 ^ e := mul_le_mul hm hdouble (by positivity) (by positivity)
    have hup := (abs_le.mp (hnearer.trans hhalf)).2
    have hdown := (abs_le.mp hhalf).1
    linarith
  · rw [hround]
    refine roundEven_eq_of_abs_sub_le ?_
    rw [← hround, Int.cast_natCast, ← hscale, ← hscale]
    exact mul_le_mul_of_nonneg_right hnearer hten.le

/-- A numeral that is not zero is read as a finite float. -/
theorem value_ofDecimal {d : Decimal} (hd : d.digits ≠ 0) {k : ℕ} (hexponent : d.exponent = -k) (hk : k ≤ 22)
    {m : ℕ} {e : ℤ} (h : IsNearest ((d.digits : ℚ) / 10 ^ k) m e) (he : e ≤ 971) :
    value (ofDecimal d) = .finite d.negative m e := by
  have hnormal := h.isNormal (isLarge_div (Nat.pos_of_ne_zero hd) hk) he
  rw [value_eq_ofUnpacked, toModel_ofDecimal hd hexponent hk h he, hnormal.unpack_pack, Value.ofUnpacked]
  cases d.negative <;> rfl

theorem value_zero : value 0 = .finite false 0 (-1074) := by decide +kernel

theorem ofDecimal_of_digits_eq_zero {d : Decimal} (hd : d.digits = 0) (hnegative : d.negative = false) :
    ofDecimal d = 0 := by
  simp [ofDecimal, hd, hnegative]

theorem abs_toRat {negative : Bool} {m : ℕ} {e : ℤ} (h : value x = .finite negative m e) : |toRat x| = m * 2 ^ e := by
  have hnonneg : (0 : ℚ) ≤ m * 2 ^ e := by positivity
  rw [toRat, h, Value.toRat, abs_mul, abs_of_nonneg hnonneg]
  cases negative <;> simp

/-- Up to the sign, a float is rounded as its mantissa is. -/
theorem natAbs_roundEven_toRat {negative : Bool} {m : ℕ} {e : ℤ} (h : value x = .finite negative m e) (places : ℕ) :
    ((roundEven (toRat x * 10 ^ places)).natAbs : ℤ) = roundEven ((m : ℚ) * 2 ^ e * 10 ^ places) := by
  have hnonneg : 0 ≤ roundEven ((m : ℚ) * 2 ^ e * 10 ^ places) := le_roundEven (by push_cast; positivity)
  rw [toRat, h, Value.toRat]
  cases negative with
  | false =>
      rw [if_neg (by simp), one_mul]
      omega
  | true =>
      rw [if_pos rfl, neg_one_mul, neg_mul, roundEven_neg]
      omega

section

variable {n : ℤ} {m : ℕ} {e : ℤ}

/-- A float with the sign of a number is as far from it as the one is from the other without signs. -/
theorem abs_toRat_sub (h : value x = .finite (decide (n < 0)) m e) :
    |toRat x - n / 10 ^ places| = |(m : ℚ) * 2 ^ e - n.natAbs / 10 ^ places| := by
  have hcast : (n.natAbs : ℚ) = |(n : ℚ)| := by rw [← Int.cast_natCast, Int.natCast_natAbs, Int.cast_abs]
  rw [toRat, h, Value.toRat, hcast]
  by_cases hneg : n < 0
  · have hneg' : (n : ℚ) < 0 := by exact_mod_cast hneg
    rw [decide_eq_true hneg, if_pos rfl, neg_one_mul, abs_of_neg hneg', ← abs_neg]
    congr 1
    ring
  · have hnonneg : (0 : ℚ) ≤ n := by exact_mod_cast not_lt.mp hneg
    rw [decide_eq_false hneg, if_neg (by simp), one_mul, abs_of_nonneg hnonneg]

theorem roundEven_toRat (h : value x = .finite (decide (n < 0)) m e)
    (hround : roundEven ((m : ℚ) * 2 ^ e * 10 ^ places) = n.natAbs) : roundEven (toRat x * 10 ^ places) = n := by
  rw [toRat, h, Value.toRat]
  by_cases hneg : n < 0
  · rw [decide_eq_true hneg, if_pos rfl, neg_one_mul, neg_mul, roundEven_neg, hround]
    omega
  · rw [decide_eq_false hneg, if_neg (by simp), one_mul, hround]
    omega

end

/-- A numeral with the value that a finite float is rounded to is read as one float, however many zeros it
ends in. This float is rounded to the same value, and none is nearer to it. -/
theorem ofDecimal_rounds_back (hx : x.isFinite = true) (hplaces : places ≤ 22) {d : Decimal} {k j : ℕ}
    (hkj : k + j = places) (hexponent : d.exponent = -k) {n : ℤ} (hn : n = roundEven (toRat x * 10 ^ places))
    (hnegative : d.negative = decide (n < 0)) (hdigits : d.digits * 10 ^ j = n.natAbs) :
    ofDecimal d = ofDecimal (Decimal.ofTicks places n) ∧ (ofDecimal d).isFinite = true ∧
      roundEven (toRat (ofDecimal d) * 10 ^ places) = n ∧
      ∀ y : Float, y.isFinite = true → |toRat (ofDecimal d) - n / 10 ^ places| ≤ |toRat y - n / 10 ^ places| := by
  obtain ⟨negative, m₀, e₀, hvalue⟩ := (isFinite_iff x).mp hx
  obtain ⟨hm₀, -, he₀⟩ := bounds_of_value_eq hvalue
  by_cases hzero : n = 0
  · have hd : d.digits = 0 := by
      rw [hzero, Int.natAbs_zero, Nat.mul_eq_zero] at hdigits
      exact hdigits.resolve_right (by positivity)
    have hread := ofDecimal_of_digits_eq_zero hd (by rw [hnegative, hzero]; rfl)
    have hread' : ofDecimal (Decimal.ofTicks places n) = 0 :=
      ofDecimal_of_digits_eq_zero (by rw [Decimal.ofTicks, hzero]; rfl) (by rw [Decimal.ofTicks, hzero]; rfl)
    rw [hread, hread', isFinite_iff, toRat, value_zero, hzero]
    refine ⟨rfl, ⟨_, _, _, rfl⟩, ?_, by simp [Value.toRat]⟩
    have hcast : (Value.finite false 0 (-1074)).toRat * 10 ^ places = ((0 : ℤ) : ℚ) := by simp [Value.toRat]
    rw [hcast, roundEven_intCast]
  · have hpos : 0 < n.natAbs := Int.natAbs_pos.mpr hzero
    have hd : d.digits ≠ 0 := by
      rintro hd
      rw [hd, Nat.zero_mul] at hdigits
      omega
    have hquotient : (d.digits : ℚ) / 10 ^ k = (n.natAbs : ℚ) / 10 ^ places := by
      rw [← hdigits, ← hkj, pow_add]
      push_cast
      field_simp
    obtain ⟨m, e, hnear⟩ := exists_isNearest hpos hplaces
    obtain ⟨he, hround⟩ := hnear.rounds_back hpos hplaces hm₀ he₀ (hn ▸ natAbs_roundEven_toRat hvalue places)
    have hnear' : IsNearest ((d.digits : ℚ) / 10 ^ k) m e := hquotient ▸ hnear
    have hread := value_ofDecimal hd hexponent (by omega) hnear' he
    have hmodel := toModel_ofDecimal hd hexponent (by omega) hnear' he
    have hmodel' := toModel_ofDecimal (d := Decimal.ofTicks places n) hpos.ne' rfl hplaces hnear he
    rw [hnegative] at hread hmodel
    refine ⟨congrArg Float.ofModel (hmodel.trans hmodel'.symm), ?_, roundEven_toRat hread hround, ?_⟩
    · rw [isFinite_iff]
      exact ⟨_, _, _, hread⟩
    · intro y hy
      obtain ⟨negative', m₁, e₁, hvalue'⟩ := (isFinite_iff y).mp hy
      have hn' : |(n : ℚ) / 10 ^ places| = (n.natAbs : ℚ) / 10 ^ places := by
        rw [abs_div, ← Int.cast_abs, Int.abs_eq_natAbs, Int.cast_natCast, abs_of_pos (by positivity)]
      calc |toRat (ofDecimal d) - n / 10 ^ places| = |(m : ℚ) * 2 ^ e - n.natAbs / 10 ^ places| := abs_toRat_sub hread
        _ ≤ |(m₁ : ℚ) * 2 ^ e₁ - n.natAbs / 10 ^ places| :=
            hnear.abs_sub_le (isLarge_div hpos hplaces) (bounds_of_value_eq hvalue').1 e₁
        _ = |(|toRat y| - |(n : ℚ) / 10 ^ places|)| := by
            rw [hn', abs_toRat hvalue']
        _ ≤ |toRat y - n / 10 ^ places| := abs_abs_sub_abs_le _ _

/-! ### Floats as numbers that can be read again -/

theorem rounded_eq (hx : x.isFinite = true) (places : ℕ) :
    Scalar.rounded places x = ofDecimal (.ofTicks places (roundEven (toRat x * 10 ^ places))) := by
  have hticks : Scalar.ticks places x = .count (roundEven (toRat x * 10 ^ places)) := ticks_eq hx places
  rw [Scalar.rounded, hticks]
  rfl

/-- A finite float is rounded to the float that is nearest to its nearest multiple of the last place. -/
theorem rounded_spec (hx : x.isFinite = true) (hplaces : places ≤ 22) {n : ℤ}
    (hn : n = roundEven (toRat x * 10 ^ places)) :
    (Scalar.rounded places x).isFinite = true ∧ roundEven (toRat (Scalar.rounded places x) * 10 ^ places) = n ∧
      ∀ y : Float, y.isFinite = true →
        |toRat (Scalar.rounded places x) - n / 10 ^ places| ≤ |toRat y - n / 10 ^ places| := by
  rw [rounded_eq hx, ← hn]
  exact (ofDecimal_rounds_back hx (d := .ofTicks places n) (k := places) (j := 0) hplaces (Nat.add_zero _) rfl hn
    rfl (by rw [pow_zero, mul_one]; rfl)).2

instance : Scalar.Printed Float where
  exists_ticks places _ hv := ⟨_, ticks_eq hv places⟩

instance : Scalar.Coded Float where
  code?_toDigits := by
    have hread : ∀ n < 4, Decimal.read? (Nat.toDigits 10 n) = some ⟨false, n, 0⟩ := by decide
    have hcode : ∀ n < 4, Scalar.code? (ofDecimal ⟨false, n, 0⟩) = some n := by decide +kernel
    intro n hn letter
    rw [Word.code?, hread n hn]
    exact hcode n hn

theorem legible (hplaces : places ≤ 22) : Scalar.Legible Float places where
  number?_render := by
    rintro format rfl v hv letter
    obtain ⟨m, k, j, hread, hkj, hdigits⟩ := format.read?_ofTicks (roundEven (toRat v * 10 ^ format.decimalPlaces))
    obtain ⟨hsame, hfinite, -⟩ := ofDecimal_rounds_back hv (d := ⟨_, m, -k⟩) hplaces hkj rfl rfl rfl hdigits
    rw [Word.number?, NumberFormat.render_of_ticks (ticks_eq hv _), String.toList_ofList, hread, rounded_eq hv, ← hsame]
    exact (Option.filter_some ..).trans (if_pos hfinite)

end Binary64

namespace NumberFormat

open Binary64

/-! ### The text as an encoding -/

/-- The text is a plain numeral for `n` last places, with a minus only below zero, and one word holds it. -/
structure Encodes (format : NumberFormat) (n : ℤ) (text : List Char) : Prop where
  shape : ∃ cs whole fraction, Decimal.IsNumeral cs whole fraction ∧ text = if n < 0 then '-' :: cs else cs
  sign : '-' ∈ text ↔ n < 0
  word : ∀ letter : Char, letter.isUpper → wordsOf (Word.text ⟨letter, text⟩) = [⟨letter, text⟩]
  value : ∃ d, Decimal.read? text = some d ∧ (d.value : ℚ) = n / 10 ^ format.decimalPlaces

theorem encodes_ofTicks (format : NumberFormat) (n : ℤ) : format.Encodes n (format.ofTicks n) := by
  obtain ⟨cs, whole, fraction, -, hnumeral, htext, -⟩ := format.isNumeral_ofTicks n
  obtain ⟨m, k, j, hread, hplaces, hdigits⟩ := format.read?_ofTicks n
  constructor
  case shape => exact ⟨cs, whole, fraction, hnumeral, htext⟩
  case sign =>
    have hcs : '-' ∉ cs := by
      intro hmem
      have hchar := hnumeral.isDigit_or_eq '-' hmem
      revert hchar
      decide
    rw [htext]
    split
    · rename_i hneg
      simp [hneg]
    · rename_i hpos
      simp [hcs, hpos]
  case word =>
    intro letter hletter
    have hproper : Word.Proper ⟨letter, format.ofTicks n⟩ := ⟨hletter, format.isValueChar_ofTicks n⟩
    have hline : Word.text ⟨letter, format.ofTicks n⟩ = String.ofList (spelled [⟨letter, format.ofTicks n⟩] []) := by
      rw [Word.text, spelled, List.map_singleton, List.append_nil, List.intercalate_singleton, Word.chars]
    rw [hline, wordsOf_spelled (by simpa using hproper) .nil]
  case value => exact ⟨_, hread, by rw [Decimal.value_of_ticks hdigits, hplaces]⟩

/-- A finite float is printed as a multiple of the last place that is nearest to it, the same one however
zeros are left out, and the float that is read back from the text is printed the same. -/
theorem encodes_render {x : Float} (hx : x.isFinite = true) {places : ℕ} (hplaces : places ≤ 10) :
    ∃ (n : ℤ) (y : Float), (∀ k : ℤ, |toRat x - n / 10 ^ places| ≤ |toRat x - k / 10 ^ places|) ∧
      y.isFinite = true ∧ ∀ format : NumberFormat, format.decimalPlaces = places →
        format.Encodes n (format.render x).toList ∧
        (∀ letter, (⟨letter, (format.render x).toList⟩ : Word).number? = some y) ∧
        format.render y = format.render x := by
  obtain ⟨n, hn⟩ : ∃ n, n = roundEven (toRat x * 10 ^ places) := ⟨_, rfl⟩
  have hten : (0 : ℚ) < 10 ^ places := by positivity
  obtain ⟨hfinite, hround, -⟩ := rounded_spec hx (hplaces.trans (by norm_num)) hn
  refine ⟨n, Scalar.rounded places x, ?_, hfinite, ?_⟩
  · intro k
    have hscale : ∀ m : ℤ, |toRat x - m / 10 ^ places| * 10 ^ places = |toRat x * 10 ^ places - m| := by
      intro m
      rw [← abs_of_pos hten, ← abs_mul, abs_of_pos hten, sub_mul, div_mul_cancel₀ _ hten.ne']
    refine le_of_mul_le_mul_right ?_ hten
    rw [hscale, hscale, hn]
    exact abs_sub_roundEven_le _ k
  · rintro format rfl
    have hrender : format.render x = String.ofList (format.ofTicks n) :=
      render_of_ticks ((ticks_eq hx _).trans (congrArg Ticks.count hn.symm))
    have hrender' : format.render (Scalar.rounded format.decimalPlaces x) = String.ofList (format.ofTicks n) :=
      render_of_ticks ((ticks_eq hfinite _).trans (congrArg Ticks.count hround))
    refine ⟨?_, fun letter => ?_, hrender'.trans hrender.symm⟩
    · rw [hrender, String.toList_ofList]
      exact format.encodes_ofTicks n
    · exact (legible (hplaces.trans (by norm_num))).number?_render format rfl x hx letter

/-- A tenth is not a float, and one below zero that is printed as zero has no sign. -/
theorem encodes_tenth :
    (Float.isFinite 0.1 = true ∧ 3 ≤ 10) ∧ (({} : NumberFormat).render (0.1 : Float)) = "0.1" ∧
      ({} : NumberFormat).render (-0.0004 : Float) = "0" ∧
      ∃ (n : ℤ) (y : Float), (∀ k : ℤ, |toRat 0.1 - n / 10 ^ 3| ≤ |toRat 0.1 - k / 10 ^ 3|) ∧
        y.isFinite = true ∧ ∀ format : NumberFormat, format.decimalPlaces = 3 →
          format.Encodes n (format.render (0.1 : Float)).toList ∧
          (∀ letter, (⟨letter, (format.render (0.1 : Float)).toList⟩ : Word).number? = some y) ∧
          format.render y = format.render (0.1 : Float) := by
  have hfinite : Float.isFinite 0.1 = true := by decide +kernel
  exact ⟨⟨hfinite, by norm_num⟩, by decide +kernel, by decide +kernel, encodes_render hfinite (by norm_num)⟩

end NumberFormat

end PartProgram
