import Mathlib

/-!
# Rounding

What a binary format does to a number that is not nought: shortening it to the digits of the format
leaves the place of its first digit where it was, and rounding moves that place by no more than one
up. This holds of every format.
-/
namespace Folio.Rounding

open Float.Model (Format UnpackedFloat totalExponent)
open Float.Model.UnpackedFloat

variable {spec : Format}

/-! ## What is read off a word -/

theorem toNat_unpackMantissa (word : BitVec spec.numBits) :
    (unpackMantissa word).toNat = word.toNat % 2 ^ spec.mantissaBitsWithoutImplicit := by
  simp [unpackMantissa_def, BitVec.extractLsb'_toNat]

theorem toNat_unpackExponent (word : BitVec spec.numBits) :
    (unpackExponent word).toNat =
      word.toNat / 2 ^ spec.mantissaBitsWithoutImplicit % 2 ^ spec.exponentBits := by
  simp [unpackExponent_def, BitVec.extractLsb'_toNat, Nat.shiftRight_eq_div_pow]

/-- The highest bit is the sign. -/
theorem ofBitVec_unpackSign {word : BitVec spec.numBits}
    (h : word.toNat < 2 ^ (spec.mantissaBitsWithoutImplicit + spec.exponentBits)) :
    Sign.ofBitVec (unpackSign word) = .positive := by
  refine if_pos (BitVec.eq_of_toNat_eq ?_)
  simp [unpackSign_def, BitVec.extractLsb'_toNat, Nat.shiftRight_eq_div_pow, Nat.div_eq_of_lt h]

theorem toNat_implicit {k : ℕ} (mantissa : BitVec k) :
    (1#1 ++ mantissa).toNat = 2 ^ k + mantissa.toNat := by
  rw [BitVec.toNat_append, ← Nat.shiftLeft_add_eq_or_of_lt mantissa.isLt, Nat.shiftLeft_eq]
  simp

theorem log2_implicit {k : ℕ} (mantissa : BitVec k) : (1#1 ++ mantissa).toNat.log2 = k := by
  have himplicit := toNat_implicit mantissa
  have hmantissa := mantissa.isLt
  refine (Nat.log2_eq_iff (by omega)).mpr ?_
  rw [himplicit, Nat.pow_succ]
  omega

/-! ## Shortening -/

theorem mantissa_shiftRight (m : ExtendedMantissa) (k : ℕ) :
    (m >>> k).mantissa = m.mantissa / 2 ^ k := by
  change (k.repeat ExtendedMantissa.shiftRightOne m).mantissa = _
  induction k with
  | zero => simp [Nat.repeat]
  | succ k ih =>
    change (k.repeat ExtendedMantissa.shiftRightOne m).mantissa / 2 = _
    rw [ih, Nat.div_div_eq_div_mul, Nat.pow_succ]

theorem mantissa_ofMantissaAndAccuracy (m : ℕ) (accuracy : Accuracy) :
    (ExtendedMantissa.ofMantissaAndAccuracy m accuracy).mantissa = m := by
  cases accuracy with
  | exact => rfl
  | inexact o => cases o <;> rfl

theorem le_roundedMantissa (m : ExtendedMantissa) : m.mantissa ≤ m.roundedMantissa := by
  obtain ⟨m, round, sticky⟩ := m
  cases round <;> cases sticky <;>
    simp [ExtendedMantissa.roundedMantissa, ExtendedMantissa.accuracy, Accuracy.roundToNearestEven]

theorem roundedMantissa_le (m : ExtendedMantissa) : m.roundedMantissa ≤ m.mantissa + 1 := by
  obtain ⟨m, round, sticky⟩ := m
  cases round <;> cases sticky <;>
    simp [ExtendedMantissa.roundedMantissa, ExtendedMantissa.accuracy, Accuracy.roundToNearestEven]
  omega

theorem log2_div_pow {m k : ℕ} (hm : m ≠ 0) (h : k ≤ m.log2) :
    m / 2 ^ k ≠ 0 ∧ (m / 2 ^ k).log2 = m.log2 - k := by
  have hpos : m / 2 ^ k ≠ 0 := by
    have hle : 2 ^ k ≤ m := (Nat.pow_le_pow_right (by decide) h).trans (Nat.log2_self_le hm)
    exact (Nat.div_pos hle (by positivity)).ne'
  refine ⟨hpos, (Nat.log2_eq_iff hpos).mpr ⟨?_, ?_⟩⟩
  · rw [Nat.le_div_iff_mul_le (by positivity), ← Nat.pow_add, Nat.sub_add_cancel h]
    exact Nat.log2_self_le hm
  · rw [Nat.div_lt_iff_lt_mul (by positivity), ← Nat.pow_add]
    exact Nat.lt_log2_self.trans_le (Nat.pow_le_pow_right (by decide) (by omega))

theorem targetExponent_eq (spec : Format) (m : ℕ) (e : ℤ) :
    spec.targetExponent (totalExponent m e) =
      max (m.log2 + e - spec.mantissaBitsWithoutImplicit) spec.minExponent := by
  unfold Format.targetExponent totalExponent Format.mantissaBits
  congr 1
  omega

/-- A number that is no smaller than the smallest one of the format, shortened to fit into it. -/
structure Shortened (spec : Format) (m : ℕ) (e : ℤ) (m' : ℕ) (e' : ℤ) : Prop where
  ne_zero : m' ≠ 0
  leading : (m'.log2 : ℤ) + e' = m.log2 + e
  fits : spec.targetExponent (totalExponent m' e') ≤ e'
  canonical : e ≤ spec.targetExponent (totalExponent m e) →
    spec.targetExponent (totalExponent m' e') = e'

theorem shiftToTargetExponent_eq {m : ℕ} {e : ℤ} (hm : m ≠ 0)
    (hsize : spec.minExponent ≤ m.log2 + e) (accuracy : Accuracy) :
    ∃ m' e', shiftToTargetExponent spec m e accuracy = (m', e') ∧
      Shortened spec m e m'.mantissa e' := by
  have hdigits := spec.hm
  obtain ⟨k, hk⟩ : ∃ k, k = (spec.targetExponent (totalExponent m e) - e).toNat := ⟨_, rfl⟩
  refine ⟨ExtendedMantissa.ofMantissaAndAccuracy m accuracy >>> k, e + k, ?_, ?_⟩
  · unfold shiftToTargetExponent shiftToExponent
    rw [hk]
  · have htarget := targetExponent_eq spec m e
    obtain ⟨hpos, hlog⟩ := log2_div_pow hm (k := k) (by omega)
    have htarget' := targetExponent_eq spec (m / 2 ^ k) (e + k)
    rw [mantissa_shiftRight, mantissa_ofMantissaAndAccuracy]
    exact ⟨hpos, by omega, by omega, fun _ => by omega⟩

/-- What rounding makes of a number: it may gain a digit, and then is shortened once more. -/
structure Rounded (spec : Format) (m : ℕ) (e : ℤ) (m' : ℕ) (e' : ℤ) : Prop where
  le_leading : (m.log2 : ℤ) + e ≤ m'.log2 + e'
  leading_le : (m'.log2 : ℤ) + e' ≤ m.log2 + e + 1
  fits : spec.targetExponent (totalExponent m' e') ≤ e'
  canonical : e ≤ spec.targetExponent (totalExponent m e) →
    spec.targetExponent (totalExponent m' e') = e'

theorem roundWithAccuracy_eq_finite {m : ℕ} {e : ℤ} (hm : m ≠ 0)
    (hsize : spec.minExponent ≤ m.log2 + e) (accuracy : Accuracy) (s : Sign) :
    ∃ m' e' h, roundWithAccuracy spec s m e accuracy = .finite s m' e' h ∧
      Rounded spec m e m' e' := by
  obtain ⟨m₁, e₁, hshift, hshort⟩ := shiftToTargetExponent_eq hm hsize accuracy
  have hrounded := le_roundedMantissa m₁
  have hrounded' := roundedMantissa_le m₁
  have hpos := hshort.ne_zero
  have hleading := hshort.leading
  have hlonger : m₁.mantissa.log2 ≤ m₁.roundedMantissa.log2 :=
    (Nat.le_log2 (by omega)).mpr ((Nat.log2_self_le hpos).trans hrounded)
  have hdigit : m₁.roundedMantissa.log2 ≤ m₁.mantissa.log2 + 1 := by
    have hlt : m₁.mantissa < 2 ^ (m₁.mantissa.log2 + 1) := Nat.lt_log2_self
    have hpow := Nat.two_pow_pos (m₁.mantissa.log2 + 1)
    refine Nat.le_of_lt_succ ((Nat.log2_lt (by omega)).mpr ?_)
    rw [Nat.pow_succ]
    omega
  have hpos' : m₁.roundedMantissa ≠ 0 := by omega
  have hsize' : spec.minExponent ≤ m₁.roundedMantissa.log2 + e₁ := by omega
  obtain ⟨m₂, e₂, hshift', hshort'⟩ := shiftToTargetExponent_eq hpos' hsize' .exact
  refine ⟨m₂.mantissa, e₂, Nat.pos_of_ne_zero hshort'.ne_zero, ?_, ?_⟩
  · simp only [roundWithAccuracy, hshift, hshift', hshort'.ne_zero, dite_false]
  · have hleading' := hshort'.leading
    refine ⟨by omega, by omega, hshort'.fits, fun hlong => hshort'.canonical ?_⟩
    have hcanonical := hshort.canonical hlong
    rw [targetExponent_eq] at hcanonical ⊢
    omega

/-- What fits already is left as it is. -/
theorem roundWithAccuracy_of_canonical {m : ℕ} {e : ℤ} (hm : 0 < m)
    (h : spec.targetExponent (totalExponent m e) = e) (s : Sign) :
    roundWithAccuracy spec s m e .exact = .finite s m e hm := by
  have hshift : shiftToTargetExponent spec m e .exact = (⟨m, false, false⟩, e) := by
    unfold shiftToTargetExponent shiftToExponent
    simp only [h, sub_self]
    exact Prod.ext rfl (add_zero e)
  have hrounded : (⟨m, false, false⟩ : ExtendedMantissa).roundedMantissa = m := rfl
  simp only [roundWithAccuracy, hshift, hrounded, hm.ne', dite_false]

/-! ## Packing -/

theorem unpack_pack_infinity (s : Sign) : unpack spec (pack spec (.infinity s)) = .infinity s := by
  simp [pack, packedInfinity, unpack]

theorem unpack_pack_normal {m : ℕ} {e : ℤ} (hm : 0 < m) (s : Sign)
    (hlog : m.log2 = spec.mantissaBitsWithoutImplicit)
    (hlow : 0 < e + spec.exponentBias + spec.mantissaBitsWithoutImplicit)
    (hhigh : (e + spec.exponentBias + spec.mantissaBitsWithoutImplicit).toNat + 1 <
      2 ^ spec.exponentBits) :
    unpack spec (pack spec (.finite s m e hm)) = .finite s m e hm := by
  have hdigits : m.log2 + 1 = spec.mantissaBits := by
    rw [hlog, Format.mantissaBits, Nat.add_comm]
  obtain ⟨x, hx⟩ : ∃ x, x = (e + spec.exponentBias + spec.mantissaBitsWithoutImplicit).toNat :=
    ⟨_, rfl⟩
  have hpack : pack spec (.finite s m e hm) = packComponents spec s (BitVec.ofNat _ x)
      (BitVec.ofNat _ m) := by
    unfold pack
    simp only [← hx]
    rw [if_neg (by omega), if_pos hdigits]
  have hexponent : (BitVec.ofNat spec.exponentBits x).toNat = x := by
    rw [BitVec.toNat_ofNat, Nat.mod_eq_of_lt (by omega)]
  have hfull : BitVec.ofNat spec.exponentBits x ≠ -1#_ := by
    intro h
    rw [h, BitVec.neg_one_eq_allOnes, BitVec.toNat_allOnes] at hexponent
    omega
  have hzero : BitVec.ofNat spec.exponentBits x ≠ 0#_ := by
    intro h
    rw [h, BitVec.toNat_zero] at hexponent
    omega
  have hmantissa : (1#1 ++ BitVec.ofNat spec.mantissaBitsWithoutImplicit m).toNat = m := by
    have hlow := Nat.log2_self_le hm.ne'
    have hhigh := Nat.lt_log2_self (n := m)
    rw [hlog] at hlow hhigh
    rw [toNat_implicit, BitVec.toNat_ofNat, Nat.mod_eq_sub_mod hlow,
      Nat.mod_eq_of_lt (by omega), Nat.add_sub_cancel' hlow]
  rw [hpack]
  unfold unpack
  simp only [unpackExponent_packComponents, unpackMantissa_packComponents,
    unpackSign_packComponents, Sign.ofBitVec_toBitVec, hmantissa, hexponent]
  rw [if_neg hfull, if_neg hzero]
  congr
  omega

end Folio.Rounding
