import Mathlib
import PartProgram.Number.Floating

/-! # Floats taken apart

What the bits of a float stand for is said twice: as the value that the programs compute with, and as the
unpacked form on which the operations of the language are defined. The two agree, and a finite form with a
full mantissa survives being packed.
-/

namespace PartProgram.Binary64

open Float.Model Float.Model.UnpackedFloat

/-- The sign is a minus. -/
def isNegative : UnpackedFloat.Sign → Bool
  | .negative => true
  | .positive => false

/-- The value of an unpacked float. A zero is a subnormal without a mantissa. -/
def Value.ofUnpacked : UnpackedFloat → Value
  | .notANumber => .undefined
  | .infinity s => .infinite (isNegative s)
  | .zero s => .finite (isNegative s) 0 (-1074)
  | .finite s m e _ => .finite (isNegative s) m e

/-! ### The format -/

theorem storedBits_eq : Format.binary64.mantissaBitsWithoutImplicit = 52 := rfl

theorem mantissaBits_eq : Format.binary64.mantissaBits = 53 := rfl

theorem exponentBias_eq : (Format.binary64.exponentBias : ℤ) = 1023 := rfl

theorem minExponent_eq : Format.binary64.minExponent = -1074 := rfl

/-! ### Reading the fields of a word -/

section

variable (b : BitVec Format.binary64.numBits)

theorem toNat_unpackMantissa : (unpackMantissa b).toNat = b.toNat % 2 ^ 52 := by
  rw [unpackMantissa_def, BitVec.extractLsb'_toNat, Nat.shiftRight_zero]

theorem toNat_unpackExponent : (unpackExponent b).toNat = b.toNat / 2 ^ 52 % 2 ^ 11 := by
  rw [unpackExponent_def, BitVec.extractLsb'_toNat, Nat.shiftRight_eq_div_pow]

theorem toNat_unpackSign : (unpackSign b).toNat = b.toNat / 2 ^ 63 % 2 := by
  rw [unpackSign_def, BitVec.extractLsb'_toNat, Nat.shiftRight_eq_div_pow]
  rfl

theorem ofBitVec_unpackSign :
    isNegative (Sign.ofBitVec (unpackSign b)) = (b.toNat / 2 ^ 63 % 2 == 1) := by
  have hsign : ∀ c : BitVec 1, isNegative (Sign.ofBitVec c) = (c.toNat == 1) := by decide
  rw [hsign, toNat_unpackSign]

end

/-- A mantissa that is stored without its leading bit. -/
theorem toNat_one_append {n : ℕ} (m : BitVec n) : (1#1 ++ m).toNat = 2 ^ n + m.toNat := by
  have hlt := m.isLt
  rw [BitVec.toNat_append, ← Nat.shiftLeft_add_eq_or_of_lt hlt]
  simp [Nat.shiftLeft_eq]

/-- The fields of a word mean what its unpacked form says. -/
theorem ofWord_toNat (b : BitVec Format.binary64.numBits) :
    ofWord b.toNat = .ofUnpacked (UnpackedFloat.unpack .binary64 b) := by
  have hexponent := toNat_unpackExponent b
  have hmantissa := toNat_unpackMantissa b
  have hsign := ofBitVec_unpackSign b
  have hfull : unpackExponent b = -1#_ ↔ (unpackExponent b).toNat = 2047 := by
    rw [← BitVec.toNat_inj]
    rfl
  have hempty : unpackExponent b = 0#_ ↔ (unpackExponent b).toNat = 0 := by
    rw [← BitVec.toNat_inj]
    rfl
  have hzero : unpackMantissa b = 0#_ ↔ (unpackMantissa b).toNat = 0 := by
    rw [← BitVec.toNat_inj]
    rfl
  simp only [ofWord, Nat.pow_eq, ← hexponent, ← hmantissa, ← hsign]
  rw [UnpackedFloat.unpack]
  split
  case isTrue h =>
    rw [if_pos (hfull.mpr h)]
    split
    case isTrue h' => rw [if_pos (hzero.mpr h'), Value.ofUnpacked]
    case isFalse h' => rw [if_neg (mt hzero.mp h'), Value.ofUnpacked]
  case isFalse h =>
    rw [if_neg (mt hfull.mp h)]
    split
    case isTrue h' =>
      rw [if_pos (hempty.mpr h')]
      by_cases h₀ : unpackMantissa b = 0#_
      · rw [dif_pos h₀, Value.ofUnpacked, hzero.mp h₀]
      · rw [dif_neg h₀, Value.ofUnpacked, h', exponentBias_eq]
        rfl
    case isFalse h' =>
      rw [if_neg (mt hempty.mp h'), Value.ofUnpacked, toNat_one_append, exponentBias_eq]
      rfl

/-- A value read off the bits is that of the unpacked float. -/
theorem value_eq_ofUnpacked (x : Float) : value x = .ofUnpacked x.toModel.unpack :=
  ofWord_toNat x.toModel.toBits.toBitVec

/-- A float is finite if its value is. -/
theorem isFinite_iff (x : Float) : x.isFinite = true ↔ ∃ negative m e, value x = .finite negative m e := by
  have hmodel : x.isFinite = x.toModel.unpack.isFinite := rfl
  rw [hmodel, value_eq_ofUnpacked]
  cases x.toModel.unpack <;> simp [UnpackedFloat.isFinite, Value.ofUnpacked]

/-- The mantissa of a float has at most 53 bits, and its exponent is one that floats have. -/
theorem bounds_of_value_eq {x : Float} {negative : Bool} {m : ℕ} {e : ℤ} (h : value x = .finite negative m e) :
    m < 2 ^ 53 ∧ -1074 ≤ e ∧ e ≤ 971 := by
  simp only [value, ofWord, Nat.pow_eq] at h
  split at h
  · split at h <;> cases h
  · split at h
    · cases h
      omega
    · cases h
      omega

/-- Above the least exponent, the mantissa of a float has all its bits. -/
theorem full_of_value_eq {x : Float} {negative : Bool} {m : ℕ} {e : ℤ} (h : value x = .finite negative m e)
    (he : -1074 < e) : 2 ^ 52 ≤ m := by
  simp only [value, ofWord, Nat.pow_eq] at h
  split at h
  · split at h <;> cases h
  · split at h
    · cases h
      omega
    · cases h
      omega

/-! ### Full mantissas -/

/-- A mantissa with all its bits, at an exponent that floats have. -/
structure IsNormal (m : ℕ) (e : ℤ) : Prop where
  lower : 2 ^ 52 ≤ m
  upper : m < 2 ^ 53
  least : -1074 ≤ e
  greatest : e ≤ 971

variable {m : ℕ} {e : ℤ}

/-- A full mantissa is packed and unpacked without loss. -/
theorem IsNormal.unpack_pack (h : IsNormal m e) (s : UnpackedFloat.Sign) (hm : 0 < m) :
    (Float.Model.pack (.finite s m e hm)).unpack = .finite s m e hm := by
  obtain ⟨hlower, hupper, hleast, hgreatest⟩ := h
  have hlog : m.log2 = 52 := (Nat.log2_eq_iff hm.ne').mpr ⟨hlower, hupper⟩
  obtain ⟨n, hn⟩ : ∃ n : ℕ, e + 1075 = n := Int.eq_ofNat_of_zero_le (by omega)
  have hbiased : (e + Format.binary64.exponentBias + Format.binary64.mantissaBitsWithoutImplicit).toNat = n := by
    rw [exponentBias_eq, storedBits_eq]
    omega
  have hpacked : UnpackedFloat.pack .binary64 (.finite s m e hm) =
      packComponents .binary64 s (BitVec.ofNat _ n) (BitVec.ofNat _ m) := by
    rw [UnpackedFloat.pack]
    simp only [hbiased, hlog]
    rw [mantissaBits_eq, if_neg (by omega), if_pos rfl]
  have hunpacked : (Float.Model.pack (.finite s m e hm)).unpack =
      UnpackedFloat.unpack .binary64 (UnpackedFloat.pack .binary64 (.finite s m e hm)) := rfl
  have hsmall : n % 2 ^ 11 = n := Nat.mod_eq_of_lt (by omega)
  rw [hunpacked, hpacked, UnpackedFloat.unpack]
  simp only [unpackExponent_packComponents, unpackMantissa_packComponents, unpackSign_packComponents,
    Sign.ofBitVec_toBitVec]
  rw [if_neg, if_neg]
  · congr 1
    · rw [toNat_one_append, BitVec.toNat_ofNat]
      omega
    · rw [BitVec.toNat_ofNat, hsmall]
      rw [exponentBias_eq]
      omega
  · rw [← BitVec.toNat_inj, BitVec.toNat_ofNat, hsmall]
    change n ≠ 0
    omega
  · rw [← BitVec.toNat_inj, BitVec.toNat_ofNat, hsmall]
    change n ≠ 2047
    omega

end PartProgram.Binary64
