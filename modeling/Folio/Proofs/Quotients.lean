import Folio.Scalar
import Folio.Proofs.Rounding

/-!
# Quotients in single precision

A whole number other than nought is no smaller than one after rounding, and one, divided by any
finite number, is far from being rounded to nought. So a quotient of whole numbers and lengths is
nought, in single precision too, only where the number that is divided is nought or the divisor is
infinite.
-/
namespace Folio.Single

open Float.Model (Format UnpackedFloat totalExponent)
open Float.Model.UnpackedFloat
open Rounding

/-- A number above nought. -/
inductive IsPositive : UnpackedFloat → Prop
  | infinity : IsPositive (.infinity .positive)
  | finite (m : ℕ) (e : ℤ) (h : 0 < m) : IsPositive (.finite .positive m e h)

/-- No less than one. -/
inductive AtLeastOne : UnpackedFloat → Prop
  | infinity : AtLeastOne (.infinity .positive)
  | finite (m : ℕ) (e : ℤ) (h : 0 < m) (hone : 0 ≤ m.log2 + e) :
    AtLeastOne (.finite .positive m e h)

/-! ## Whole numbers -/

theorem le_roundQuotient (num den : ℕ) :
    num / den ≤ Decimal.BinaryFormat.roundQuotient num den := by
  unfold Decimal.BinaryFormat.roundQuotient
  simp only
  split <;> omega

/-- The mantissa of a whole number is as long as the format allows. -/
theorem le_mantissa {n : ℕ} (hn : n ≠ 0) :
    2 ^ 23 ≤ if 0 ≤ (n.log2 : ℤ) - 23 then
        Decimal.BinaryFormat.roundQuotient n (1 <<< ((n.log2 : ℤ) - 23).toNat)
      else Decimal.BinaryFormat.roundQuotient (n <<< (-((n.log2 : ℤ) - 23)).toNat) 1 := by
  have hlow := Nat.log2_self_le hn
  split
  · next hlong =>
    have hsplit : 2 ^ n.log2 = 2 ^ 23 * 2 ^ ((n.log2 : ℤ) - 23).toNat := by
      rw [← Nat.pow_add]
      congr 1
      omega
    refine le_trans ?_ (le_roundQuotient _ _)
    rw [Nat.one_shiftLeft, Nat.le_div_iff_mul_le (by positivity), ← hsplit]
    exact hlow
  · next hshort =>
    have hsplit : 2 ^ 23 = 2 ^ n.log2 * 2 ^ (-((n.log2 : ℤ) - 23)).toNat := by
      rw [← Nat.pow_add]
      congr 1
      omega
    refine le_trans ?_ (le_roundQuotient _ _)
    rw [Nat.div_one, Nat.shiftLeft_eq, hsplit]
    exact Nat.mul_le_mul_right _ hlow

/-- The pattern of a whole number other than nought is no lower than that of one. -/
theorem le_nearest {n : ℕ} (hn : n ≠ 0) : 127 * 2 ^ 23 ≤ Decimal.single.nearest n 1 := by
  have hlog : (1 : ℕ).log2 = 0 := by decide
  have hmin : Decimal.single.minExponent = -149 := by decide
  have hinf : Decimal.single.infinity = 255 * 2 ^ 23 := by decide
  have hbits : ((Decimal.single.fractionBits : ℕ) : ℤ) = 23 := rfl
  have hleading : (0 : ℤ) ≤ n.log2 := by omega
  have hexact : 1 <<< n.log2 ≤ n := by
    rw [Nat.one_shiftLeft]
    exact Nat.log2_self_le hn
  have he : max ((n.log2 : ℤ) - 23) (-149) = n.log2 - 23 := by omega
  have hm := le_mantissa hn
  unfold Decimal.BinaryFormat.nearest
  simp only [hn, hlog, hmin, hinf, hbits, he, Nat.cast_zero, sub_zero, hleading,
    Int.toNat_natCast, hexact, if_true, if_false]
  generalize (if 0 ≤ (n.log2 : ℤ) - 23 then _ else _ : ℕ) = q at hm ⊢
  change 127 * 2 ^ 23 ≤ min (255 * 2 ^ 23) (((n.log2 : ℤ) - 23 - -149).toNat * 2 ^ 23 + q)
  omega

theorem atLeastOne_unpack {word : BitVec Format.binary32.numBits}
    (hlow : 127 * 2 ^ 23 ≤ word.toNat) (hhigh : word.toNat ≤ 255 * 2 ^ 23) :
    AtLeastOne (unpack .binary32 word) := by
  have hmantissa := toNat_unpackMantissa word
  have hexponent := toNat_unpackExponent word
  have hsign : Sign.ofBitVec (unpackSign word) = .positive :=
    ofBitVec_unpackSign (by simp only; omega)
  simp only at hmantissa hexponent
  have hones : (-1#8).toNat = 255 := by decide
  unfold unpack
  simp only [hsign]
  split
  · next hfull =>
    have hzero : unpackMantissa word = 0#23 := by
      apply BitVec.eq_of_toNat_eq
      rw [hfull, hones] at hexponent
      rw [hmantissa, BitVec.toNat_zero]
      omega
    rw [if_pos hzero]
    exact .infinity
  · have hnormal : unpackExponent word ≠ 0#8 := by
      intro hzero
      rw [hzero, BitVec.toNat_zero] at hexponent
      omega
    rw [if_neg hnormal]
    refine .finite _ _ _ ?_
    rw [log2_implicit]
    simp only [Format.exponentBias]
    omega

theorem valid_of_le_infinity {word : BitVec Format.binary32.numBits}
    (h : word.toNat ≤ 255 * 2 ^ 23) : Format.binary32.Valid word where
  eq_packedNaN hfull hfraction := by
    have hmantissa := toNat_unpackMantissa word
    have hexponent := toNat_unpackExponent word
    have hones : (-1#8).toNat = 255 := by decide
    rw [hfull, hones] at hexponent
    refine absurd (BitVec.eq_of_toNat_eq ?_) hfraction
    simp only at hmantissa hexponent
    rw [hmantissa, BitVec.toNat_zero]
    omega

theorem unpack_ofBits {bits : UInt32} (h : Format.binary32.Valid bits.toBitVec) :
    (Float32.ofBits bits).toModel.unpack = unpack .binary32 bits.toBitVec := by
  have hpacked := pack_unpack_of_valid h
  unfold Float32.ofBits Float32.Model.ofBits Float32.Model.pack Float32.Model.unpack
  simp only [hpacked]

theorem atLeastOne_ofNat {n : ℕ} (hn : n ≠ 0) : AtLeastOne (ofNat n).toModel.unpack := by
  have hlow := le_nearest hn
  have hhigh := Decimal.single.nearest_le_infinity n 1
  have hinf : Decimal.single.infinity = 255 * 2 ^ 23 := by decide
  rw [hinf] at hhigh
  have hword : (Decimal.single.nearest n 1).toUInt32.toBitVec.toNat =
      Decimal.single.nearest n 1 := by
    change _ % 2 ^ 32 = _
    exact Nat.mod_eq_of_lt (by omega)
  rw [← hword] at hlow hhigh
  rw [ofNat, unpack_ofBits (valid_of_le_infinity hhigh)]
  exact atLeastOne_unpack hlow hhigh

/-! ## Quotients -/

theorem minExponent_binary32 : Format.binary32.minExponent = -149 := rfl

theorem isPositive_unpack_packComponents {exponent : BitVec 8} {fraction : BitVec 23}
    (hnumber : exponent = -1#8 → fraction = 0#23) (hnonzero : exponent = 0#8 → fraction ≠ 0#23) :
    IsPositive (unpack .binary32 (packComponents .binary32 .positive exponent fraction)) := by
  unfold unpack
  simp only [unpackExponent_packComponents, unpackMantissa_packComponents,
    unpackSign_packComponents, Sign.ofBitVec_toBitVec]
  split
  · next hfull =>
    rw [if_pos (hnumber hfull)]
    exact .infinity
  · split
    · next hzero =>
      rw [dif_neg (hnonzero hzero)]
      exact .finite _ _ _
    · exact .finite _ _ _

theorem isPositive_unpack_pack {m : ℕ} {e : ℤ} (hm : 0 < m)
    (hfits : Format.binary32.targetExponent (totalExponent m e) ≤ e) :
    IsPositive (unpack .binary32 (pack .binary32 (.finite .positive m e hm))) := by
  have hbias : (Format.binary32.exponentBias : ℤ) = 127 := rfl
  have hones : (-1#8).toNat = 255 := by decide
  have hdigits : Format.binary32.mantissaBitsWithoutImplicit = 23 := rfl
  rw [targetExponent_eq, minExponent_binary32, hdigits] at hfits
  unfold pack
  simp only [hbias]
  split
  · exact isPositive_unpack_packComponents (fun _ => rfl) (fun h => absurd h (by decide))
  · next hrange =>
    split
    · have hexponent : (BitVec.ofNat 8 (e + 127 + (23 : ℕ)).toNat).toNat = (e + 150).toNat := by
        rw [BitVec.toNat_ofNat]
        omega
      refine isPositive_unpack_packComponents (fun h => ?_) (fun h => ?_)
      · rw [h, hones] at hexponent
        omega
      · rw [h, BitVec.toNat_zero] at hexponent
        omega
    · next hshort =>
      have hlt : m < 2 ^ 23 :=
        (Nat.log2_lt hm.ne').mp (by simp only [Format.mantissaBits] at hshort; omega)
      refine isPositive_unpack_packComponents (fun h => absurd h (by decide)) (fun _ h => ?_)
      have hvalue := congrArg BitVec.toNat h
      rw [BitVec.toNat_ofNat, BitVec.toNat_zero, Nat.mod_eq_of_lt hlt] at hvalue
      exact hm.ne' hvalue

/-- A number that is finite is less than two to the power of 128. -/
theorem log2_add_le_of_unpack {word : BitVec Format.binary32.numBits} {s : Sign} {m : ℕ} {e : ℤ}
    {hm : 0 < m} (h : unpack .binary32 word = .finite s m e hm) : m.log2 + e ≤ 127 := by
  have hbias : (Format.binary32.exponentBias : ℤ) = 127 := rfl
  have hones : (-1#8).toNat = 255 := by decide
  unfold unpack at h
  simp only [hbias] at h
  split at h
  · split at h <;> cases h
  · next hfull =>
    split at h
    · next hzero =>
      split at h
      · cases h
      · injection h with _ hmantissa hexponent
        have hlog : m.log2 < 23 := (Nat.log2_lt hm.ne').mpr (hmantissa ▸ BitVec.isLt _)
        rw [hzero, BitVec.toNat_zero] at hexponent
        omega
    · injection h with _ hmantissa hexponent
      have hlog : m.log2 = 23 := hmantissa ▸ log2_implicit _
      have hlt := (unpackExponent word).isLt
      have hne : (unpackExponent word).toNat ≠ 255 := fun h =>
        hfull (BitVec.eq_of_toNat_eq (h.trans hones.symm))
      simp only at hlt
      omega

theorem le_div_pow {num den a b : ℕ} (hnum : 2 ^ (a + b) ≤ num) (hden : 0 < den)
    (hshort : den ≤ 2 ^ b) : 2 ^ a ≤ num / den := by
  rw [Nat.le_div_iff_mul_le hden]
  refine le_trans ?_ hnum
  rw [Nat.pow_add]
  exact Nat.mul_le_mul_left _ hshort

/-- One, divided by any finite number, is not so small that it would be rounded to nought. -/
theorem divCore_ne_zero {m n : ℕ} {e f : ℤ} (hm : 0 < m) (hn : 0 < n) (hone : 0 ≤ m.log2 + e)
    (hsize : n.log2 + f ≤ 127) :
    (divCore .binary32 m e n f).1 ≠ 0 ∧ Format.binary32.minExponent ≤
      (divCore .binary32 m e n f).1.log2 + (divCore .binary32 m e n f).2.1 := by
  obtain ⟨t, ht⟩ : ∃ t, t = min (e - f)
    (max (((m.log2 : ℤ) + 1 + e) - (n.log2 + 1 + f) - 24) (-149)) := ⟨_, rfl⟩
  have hcore : divCore .binary32 m e n f = (m <<< (e - f - t).toNat / n, t,
      accuracyOfFraction (m <<< (e - f - t).toNat % n) n) := by
    rw [ht]
    rfl
  obtain ⟨k, hk⟩ : ∃ k, k = (((m.log2 : ℤ) + e) - (n.log2 + f) - t - 1).toNat := ⟨_, rfl⟩
  have hlow : 2 ^ k ≤ m <<< (e - f - t).toNat / n := by
    refine le_div_pow (b := n.log2 + 1) ?_ hn Nat.lt_log2_self.le
    have hlength : k + (n.log2 + 1) = m.log2 + (e - f - t).toNat := by omega
    rw [Nat.shiftLeft_eq, hlength, Nat.pow_add]
    exact Nat.mul_le_mul_right _ (Nat.log2_self_le hm.ne')
  have hpos : m <<< (e - f - t).toNat / n ≠ 0 := by
    have hk := Nat.two_pow_pos k
    omega
  have hlog := (Nat.le_log2 hpos).mpr hlow
  rw [hcore, minExponent_binary32]
  refine ⟨hpos, ?_⟩
  simp only
  omega

theorem AtLeastOne.isPositive_div {u : UnpackedFloat} (hu : AtLeastOne u) {m : ℕ} {e : ℤ}
    (hm : 0 < m) (hsize : m.log2 + e ≤ 127) : IsPositive (unpack .binary32
      (pack .binary32 (UnpackedFloat.div .binary32 u (.finite .positive m e hm)))) := by
  cases hu with
  | infinity =>
    have hdiv : UnpackedFloat.div .binary32 (.infinity .positive) (.finite .positive m e hm) =
        .infinity .positive := rfl
    rw [hdiv, unpack_pack_infinity]
    exact .infinity
  | finite n f hn hone =>
    obtain ⟨hquotient, hlow⟩ := divCore_ne_zero hn hm hone hsize
    obtain ⟨m', e', hm', hround, hrounded⟩ := roundWithAccuracy_eq_finite hquotient hlow
      (divCore .binary32 n f m e).2.2 .positive
    have hdiv : UnpackedFloat.div .binary32 (.finite .positive n f hn)
        (.finite .positive m e hm) = .finite .positive m' e' hm' := hround
    rw [hdiv]
    exact isPositive_unpack_pack hm' hrounded.fits

/-! ## Signs -/

theorem zero_lt_iff {u : UnpackedFloat} : (zero .positive).lt u = true ↔ IsPositive u := by
  refine ⟨fun h => ?_, fun h => ?_⟩
  · cases u with
    | infinity s =>
      cases s with
      | positive => exact .infinity
      | negative => cases h
    | finite s m e hm =>
      cases s with
      | positive => exact .finite m e hm
      | negative => cases h
    | _ => cases h
  · cases h <;> rfl

theorem IsPositive.zero_div {u : UnpackedFloat} (h : IsPositive u) :
    UnpackedFloat.div .binary32 (.zero .positive) u = .zero .positive := by cases h <;> rfl

theorem IsPositive.not_lt_zero {u : UnpackedFloat} (h : IsPositive u) :
    ¬ u.lt (.zero .positive) = true := by cases h <;> exact Bool.false_ne_true

theorem IsPositive.beq_zero {u : UnpackedFloat} (h : IsPositive u) :
    u.beq (.zero .positive) = false := by cases h <;> rfl

theorem AtLeastOne.isPositive {u : UnpackedFloat} (h : AtLeastOne u) : IsPositive u := by
  cases h with
  | infinity => exact .infinity
  | finite m e hm => exact .finite m e hm

/-- What is divided by an infinity vanishes or is no number. -/
theorem AtLeastOne.div_infinity_not_lt_zero {u : UnpackedFloat} (h : AtLeastOne u) :
    ¬ (unpack .binary32 (pack .binary32 (UnpackedFloat.div .binary32 u (.infinity .positive)))).lt
      (.zero .positive) = true := by
  cases h with
  | infinity => exact Bool.false_ne_true
  | finite m e hm =>
    have hdiv : UnpackedFloat.div .binary32 (.finite .positive m e hm) (.infinity .positive) =
        .zero .positive := rfl
    rw [hdiv]
    exact Bool.false_ne_true

theorem lt_infinity {u v : UnpackedFloat} (h : u.lt v = true) : u ≠ .infinity .positive := by
  rintro rfl
  cases v with
  | infinity s => cases s <;> cases h
  | _ => cases h

/-! ## Single precision -/

theorem lt_iff {x y : Single} : x < y ↔ x.toModel.unpack.lt y.toModel.unpack = true :=
  decide_eq_true_iff

theorem unpack_zero : (0 : Single).toModel.unpack = .zero .positive := rfl

theorem unpack_div (x y : Single) : (x / y).toModel.unpack = unpack .binary32
    (pack .binary32 (UnpackedFloat.div .binary32 x.toModel.unpack y.toModel.unpack)) := rfl

theorem pos_iff {x : Single} : 0 < x ↔ IsPositive x.toModel.unpack := by
  rw [lt_iff, unpack_zero, zero_lt_iff]

theorem not_lt_zero {x : Single} (h : 0 < x) : ¬ x < 0 := by
  rw [lt_iff, unpack_zero]
  exact (pos_iff.mp h).not_lt_zero

theorem ne_zero_of_pos {x : Single} (h : 0 < x) : (x == 0) = false := by
  change x.toModel.unpack.beq (0 : Single).toModel.unpack = false
  rw [unpack_zero]
  exact (pos_iff.mp h).beq_zero

theorem natCast_pos {n : ℕ} (hn : n ≠ 0) : (0 : Single) < n :=
  pos_iff.mpr (atLeastOne_ofNat hn).isPositive

theorem unpack_zero_div {w : Single} (hw : 0 < w) : (0 / w).toModel.unpack = .zero .positive := by
  rw [unpack_div, unpack_zero, (pos_iff.mp hw).zero_div]
  rfl

/-- Only an infinity is too large to leave anything of a whole number that it divides. -/
theorem natCast_div_pos {n : ℕ} (hn : n ≠ 0) {w : Single} (hw : 0 < w)
    (hfinite : w.toModel.unpack ≠ .infinity .positive) : 0 < (n : Single) / w := by
  have hone : AtLeastOne (n : Single).toModel.unpack := atLeastOne_ofNat hn
  rw [pos_iff] at hw ⊢
  rw [unpack_div]
  generalize hu : w.toModel.unpack = u at hw hfinite
  cases hw with
  | infinity => exact absurd rfl hfinite
  | finite m e hm => exact hone.isPositive_div hm (log2_add_le_of_unpack hu)

theorem not_natCast_div_lt (n : ℕ) {w h : Single} (hw : 0 < w) (hh : 0 < h) :
    ¬ (n : Single) / h < 0 / w := by
  rw [lt_iff, unpack_zero_div hw]
  rcases eq_or_ne n 0 with rfl | hn
  · have hzero : ((0 : ℕ) / h : Single).toModel.unpack = .zero .positive := unpack_zero_div hh
    rw [hzero]
    exact Bool.false_ne_true
  · by_cases hfinite : h.toModel.unpack = .infinity .positive
    · rw [unpack_div, hfinite]
      exact (atLeastOne_ofNat hn).div_infinity_not_lt_zero
    · exact (pos_iff.mp (natCast_div_pos hn hh hfinite)).not_lt_zero

theorem zero_div_lt {n : ℕ} {w h : Single} (hw : 0 < w) (hh : 0 < h) (hless : w < n) :
    0 / h < (n : Single) / w := by
  have hn : n ≠ 0 := by
    rintro rfl
    exact (pos_iff.mp hw).not_lt_zero (lt_iff.mp hless)
  have hpos := natCast_div_pos hn hw (lt_infinity (lt_iff.mp hless))
  rw [lt_iff] at hpos ⊢
  rwa [unpack_zero_div hh]

end Folio.Single
