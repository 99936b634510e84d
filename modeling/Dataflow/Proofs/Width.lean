import Dataflow.Value.Width
import Mathlib
set_option autoImplicit false

/-!
Floats of two widths. The wide format has the digits and the exponents of the narrow one and more, so
a narrow number that is made wide is the same number, with zeros after its digits, and none of its
digits is lost when it is made narrow again.
-/

namespace Dataflow
open Float.Model UnpackedFloat

variable {f : Format} {s : Sign} {m : Nat} {e : Int}

/-- The exponent is the one that the format gives to a number of this size. -/
def Fits (f : Format) (m : Nat) (e : Int) : Prop := f.targetExponent (totalExponent m e) = e

section Digits

theorem log2_shiftLeft (hm : 0 < m) (k : Nat) : (m <<< k).log2 = m.log2 + k := by
  have nonzero := Nat.pos_iff_ne_zero.1 hm
  rw [Nat.log2_eq_iff (by simpa [Nat.shiftLeft_eq] using nonzero), Nat.shiftLeft_eq]
  constructor
  · rw [pow_add]
    exact Nat.mul_le_mul_right _ (Nat.log2_self_le nonzero)
  · rw [show m.log2 + k + 1 = m.log2 + 1 + k by omega, pow_add]
    exact Nat.mul_lt_mul_of_pos_right Nat.lt_log2_self (Nat.two_pow_pos k)

theorem totalExponent_shift (hm : 0 < m) (e : Int) (k : Nat) :
    totalExponent (m <<< k) (e - k) = totalExponent m e := by
  rw [totalExponent, totalExponent, log2_shiftLeft hm]
  omega

/-- Only zeros are dropped. -/
theorem shift_exact (m k : Nat) :
    (⟨m <<< k, false, false⟩ : ExtendedMantissa) >>> k = ⟨m, false, false⟩ := by
  change Nat.repeat ExtendedMantissa.shiftRightOne k _ = _
  induction k generalizing m with
  | zero => rfl
  | succ k ih =>
    have double : m <<< (k + 1) = (2 * m) <<< k := by
      simp only [Nat.shiftLeft_eq, pow_succ]
      ring
    rw [Nat.repeat, double, ih]
    simp [ExtendedMantissa.shiftRightOne]

theorem shiftToTargetExponent_shift (hm : 0 < m) (fits : Fits f m e) (k : Nat) :
    shiftToTargetExponent f (m <<< k) (e - k) .exact = (⟨m, false, false⟩, e) := by
  rw [shiftToTargetExponent, totalExponent_shift hm, fits]
  have amount : (e - (e - (k : Int))).toNat = k := by omega
  have back : e - (k : Int) + k = e := by omega
  simp only [shiftToExponent, amount, ExtendedMantissa.ofMantissaAndAccuracy, shift_exact, back]

theorem roundWithAccuracy_shift (hm : 0 < m) (fits : Fits f m e) (s : Sign) (k : Nat) :
    roundWithAccuracy f s (m <<< k) (e - k) .exact = .finite s m e hm := by
  have again := shiftToTargetExponent_shift hm fits 0
  simp only [Nat.shiftLeft_zero, Nat.cast_zero, Int.sub_zero] at again
  have kept : (⟨m, false, false⟩ : ExtendedMantissa).roundedMantissa = m := rfl
  simp only [roundWithAccuracy, shiftToTargetExponent_shift hm fits k, kept, again]
  simp [Nat.pos_iff_ne_zero.1 hm]

/-- A number with more digits than it has in the format. -/
theorem round_of_longer (hm : 0 < m) (fits : Fits f m e) (s : Sign) (k : Nat) :
    UnpackedFloat.round f s (m <<< k) (e - k) = .finite s m e hm := by
  have amount : (e - (k : Int) - e).toNat = 0 := by omega
  simp only [UnpackedFloat.round, totalExponent_shift hm, decreaseExponent]
  rw [fits, amount]
  simp only [Nat.shiftLeft_zero, Nat.cast_zero, Int.sub_zero]
  exact roundWithAccuracy_shift hm fits s k

/-- A number with fewer digits than it has in the format. -/
theorem round_of_shorter (hm : 0 < m) {k : Nat} (fits : Fits f (m <<< k) (e - k)) (s : Sign)
    (hk : 0 < m <<< k) : UnpackedFloat.round f s m e = .finite s (m <<< k) (e - k) hk := by
  have target : f.targetExponent (totalExponent m e) = e - k := by
    rw [← totalExponent_shift hm e k]
    exact fits
  have amount : (e - (e - (k : Int))).toNat = k := by omega
  simp only [UnpackedFloat.round, target, decreaseExponent, amount]
  simpa using roundWithAccuracy_shift hk fits s 0

end Digits

section Bits

/-- A number with all its digits is read back from its bits. -/
theorem unpack_pack_normal (hm : 0 < m) (size : m.log2 = f.mantissaBitsWithoutImplicit)
    (low : 1 ≤ e + f.exponentBias + f.mantissaBitsWithoutImplicit)
    (high : e + f.exponentBias + f.mantissaBitsWithoutImplicit + 1 < 2 ^ f.exponentBits) :
    UnpackedFloat.unpack f (UnpackedFloat.pack f (.finite s m e hm)) = .finite s m e hm := by
  obtain ⟨b, hb⟩ := Int.eq_ofNat_of_zero_le
    (show 0 ≤ e + f.exponentBias + f.mantissaBitsWithoutImplicit by omega)
  have room : b + 1 < 2 ^ f.exponentBits := by
    rw [hb] at high
    exact_mod_cast high
  have biased : (e + f.exponentBias + f.mantissaBitsWithoutImplicit).toNat = b := by omega
  simp only [UnpackedFloat.pack]
  rw [biased, if_neg (by omega), if_pos (by rw [size, Format.mantissaBits, Nat.add_comm])]
  have exponent : (BitVec.ofNat f.exponentBits b).toNat = b := by
    rw [BitVec.toNat_ofNat, Nat.mod_eq_of_lt (by omega)]
  have below : BitVec.ofNat f.exponentBits b ≠ -1#_ := by
    intro h
    have := congrArg BitVec.toNat h
    rw [exponent, BitVec.neg_one_eq_allOnes, BitVec.toNat_allOnes] at this
    omega
  have above : BitVec.ofNat f.exponentBits b ≠ 0#_ := by
    intro h
    have := congrArg BitVec.toNat h
    rw [exponent, BitVec.toNat_ofNat, Nat.zero_mod] at this
    omega
  simp only [UnpackedFloat.unpack, unpackExponent_packComponents, unpackMantissa_packComponents,
    unpackSign_packComponents, if_neg below, if_neg above, Sign.ofBitVec_toBitVec, exponent]
  congr 1
  · -- the first digit is a one and is not among the bits
    obtain ⟨low, high⟩ := (Nat.log2_eq_iff (Nat.pos_iff_ne_zero.1 hm)).1 size
    rw [pow_succ] at high
    rw [BitVec.toNat_append, ← Nat.shiftLeft_add_eq_or_of_lt (BitVec.isLt _), BitVec.toNat_ofNat,
      BitVec.toNat_ofNat, Nat.shiftLeft_eq, Nat.mod_eq_sub_mod low,
      Nat.mod_eq_of_lt (show m - _ < _ by omega)]
    omega
  · omega

theorem exponentBias_eq (f : Format) : (f.exponentBias : Int) = 2 ^ (f.exponentBits - 1) - 1 := by
  have := Nat.one_le_two_pow (n := f.exponentBits - 1)
  rw [Format.exponentBias]
  push_cast [this]
  rfl

theorem minExponent_eq (f : Format) :
    f.minExponent = 1 - f.exponentBias - f.mantissaBitsWithoutImplicit := by
  rw [Format.minExponent, Format.mantissaBits, exponentBias_eq]
  push_cast
  ring

/-- Bits that stand for a number give the exponent that the format gives to it, which is in range. -/
theorem fits_of_unpack (wide : 2 ≤ f.exponentBits) {b : BitVec f.numBits} {hm : 0 < m}
    (h : UnpackedFloat.unpack f b = .finite s m e hm) :
    Fits f m e ∧ m.log2 ≤ f.mantissaBitsWithoutImplicit ∧ f.minExponent ≤ e ∧
      e + f.exponentBias + f.mantissaBitsWithoutImplicit + 1 < 2 ^ f.exponentBits := by
  have bias := exponentBias_eq f
  have half : (2 : Int) ^ f.exponentBits = 2 * 2 ^ (f.exponentBits - 1) := by
    rw [← pow_succ']
    congr 1
    omega
  have two : (2 : Int) ≤ 2 ^ (f.exponentBits - 1) := by
    have := Nat.pow_le_pow_right (n := 2) (by decide) (show 1 ≤ f.exponentBits - 1 by omega)
    exact_mod_cast this
  revert h
  fun_cases UnpackedFloat.unpack f b with
  | case1 => simp
  | case2 => simp
  | case3 => simp
  | case4 digits _ e' _ _ _ zero hm' =>
    -- a number below the normal ones, with its first digit written out
    simp only [finite.injEq, and_imp]
    rintro - rfl rfl
    have size : digits.toNat.log2 < f.mantissaBitsWithoutImplicit :=
      (Nat.log2_lt (Nat.pos_iff_ne_zero.1 hm)).2 digits.isLt
    have exponent : e' = -(f.exponentBias + f.mantissaBitsWithoutImplicit) := by
      simp only [e', zero]
      simp
    rw [Fits, Format.targetExponent, totalExponent, Format.mantissaBits, minExponent_eq, exponent]
    push_cast
    omega
  | case5 digits biased e' _ _ top zero =>
    simp only [finite.injEq, and_imp]
    rintro - rfl rfl
    have size : (1#1 ++ digits).toNat.log2 = f.mantissaBitsWithoutImplicit := by
      rw [BitVec.toNat_append, ← Nat.shiftLeft_add_eq_or_of_lt digits.isLt, Nat.shiftLeft_eq,
        Nat.log2_eq_iff (by simp)]
      have := digits.isLt
      simp [pow_succ]
      omega
    have low : biased.toNat ≠ 0 := fun h => zero (BitVec.eq_of_toNat_eq (by simpa using h))
    have high : (biased.toNat : Int) + 1 < 2 ^ f.exponentBits := by
      have other : biased.toNat ≠ 2 ^ f.exponentBits - 1 := fun h => top (BitVec.eq_of_toNat_eq (by
        rw [h, BitVec.neg_one_eq_allOnes, BitVec.toNat_allOnes]))
      have : biased.toNat + 1 < 2 ^ f.exponentBits := by
        have := biased.isLt
        omega
      exact_mod_cast this
    have exponent : e' = biased.toNat - (f.exponentBias + f.mantissaBitsWithoutImplicit) := rfl
    rw [Fits, Format.targetExponent, totalExponent, Format.mantissaBits, minExponent_eq, exponent,
      size]
    push_cast
    omega

theorem unpack_packedInfinity (s : Sign) :
    UnpackedFloat.unpack f (packedInfinity f s) = .infinity s := by
  simp [UnpackedFloat.unpack, packedInfinity]

end Bits

/-- What a narrow number is in the wide format. -/
theorem exists_widened {b : BitVec Format.binary32.numBits} {hm : 0 < m}
    (h : UnpackedFloat.unpack .binary32 b = .finite s m e hm) : ∃ (k : Nat) (hk : 0 < m <<< k),
    Fits .binary32 m e ∧ rounded .binary64 (.finite s m e hm) = .finite s (m <<< k) (e - k) hk ∧
    UnpackedFloat.unpack .binary64 (UnpackedFloat.pack .binary64 (.finite s (m <<< k) (e - k) hk)) =
      .finite s (m <<< k) (e - k) hk := by
  obtain ⟨fits, size, low, high⟩ := fits_of_unpack (by decide) h
  have size' : m.log2 ≤ 23 := size
  have hk : 0 < m <<< (52 - m.log2) := by simpa [Nat.shiftLeft_eq] using hm
  have digits : (m <<< (52 - m.log2)).log2 = 52 := by
    rw [log2_shiftLeft hm]
    omega
  have low' : -149 ≤ e := low
  have high' : e + (127 : Nat) + (23 : Nat) + 1 < 2 ^ 8 := high
  refine ⟨52 - m.log2, hk, fits, round_of_shorter hm ?_ s hk, unpack_pack_normal hk digits ?_ ?_⟩
  · change max (((m <<< (52 - m.log2)).log2 : Int) + 1 + (e - ↑(52 - m.log2)) - 53) (-1074) = _
    rw [digits]
    omega
  · change 1 ≤ e - ↑(52 - m.log2) + (1023 : Nat) + (52 : Nat)
    omega
  · change e - ↑(52 - m.log2) + (1023 : Nat) + (52 : Nat) + 1 < 2 ^ 11
    omega

theorem unpack_model_pack (x : UnpackedFloat) : (Float.Model.pack x).unpack =
    UnpackedFloat.unpack .binary64 (UnpackedFloat.pack .binary64 x) := rfl

theorem model_pack_unpack (x : Float32) : Float32.Model.pack x.toModel.unpack = x.toModel := by
  have := pack_unpack_of_valid x.toModel.valid
  simp [Float32.Model.pack, Float32.Model.unpack, this]

/-- Making a number wide loses nothing. -/
theorem unpack_widen (x : Float32) :
    (widen x).toModel.unpack = rounded .binary64 x.toModel.unpack ∧
      rounded .binary32 (rounded .binary64 x.toModel.unpack) = x.toModel.unpack := by
  rw [widen, unpack_model_pack]
  cases h : x.toModel.unpack with
  | infinity s => exact ⟨unpack_packedInfinity s, rfl⟩
  | notANumber => exact ⟨unpack_packedNaN, rfl⟩
  | zero s => exact ⟨unpack_packedZero, rfl⟩
  | finite s m e hm =>
    obtain ⟨k, hk, fits, wide, back⟩ := exists_widened h
    rw [wide]
    exact ⟨back, round_of_longer hm fits s k⟩

theorem narrow_widen (x : Float32) : narrow (widen x) = x := by
  obtain ⟨wide, back⟩ := unpack_widen x
  rw [narrow, wide, back, model_pack_unpack]

theorem isFinite_widen (x : Float32) : (widen x).isFinite = x.isFinite := by
  have wide := (unpack_widen x).1
  change (widen x).toModel.unpack.isFinite = x.toModel.unpack.isFinite
  rw [wide]
  cases h : x.toModel.unpack with
  | infinity s => rfl
  | notANumber => rfl
  | zero s => rfl
  | finite s m e hm =>
    obtain ⟨k, hk, -, wide, -⟩ := exists_widened h
    rw [wide]
    rfl

end Dataflow
