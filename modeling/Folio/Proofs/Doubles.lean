import Folio.Proofs.Extended
import Folio.Proofs.Rounding

/-!
# Doubles in exact arithmetic

What a double stands for, as it is unpacked, is what its pattern stands for. Brought into the range
of a byte and cut off behind the point, a number of a document gives the same whether it is taken as
it is written or as the double that is nearest to it.
-/
namespace Folio.Doubles

open Float.Model (Format UnpackedFloat totalExponent)
open Float.Model.UnpackedFloat
open Rounding

/-- The number that is unpacked, without rounding. -/
def value : UnpackedFloat → Extended
  | .notANumber => .nan
  | .infinity s => .infinite (s == .negative)
  | .zero _ => .finite 0
  | .finite s m e _ => .finite (Exact.signed (s == .negative) (m * (2 : ℚ) ^ e))

/-- The highest bit is the sign. -/
theorem ofBitVec_unpackSign_beq (word : BitVec Format.binary64.numBits) :
    (Sign.ofBitVec (unpackSign word) == .negative) =
      decide (2 ^ 63 ≤ word.toNat) := by
  have hlt : word.toNat < 2 ^ 64 := word.isLt
  have hbit : (unpackSign word).toNat = word.toNat / 2 ^ 63 := by
    simp only [unpackSign_def, BitVec.extractLsb'_toNat, Nat.shiftRight_eq_div_pow]
    omega
  by_cases hle : 2 ^ 63 ≤ word.toNat
  · have hone : unpackSign word ≠ 0#1 := by
      intro h
      rw [h, BitVec.toNat_zero] at hbit
      omega
    rw [Sign.ofBitVec, if_neg hone, decide_eq_true hle]
    rfl
  · have hzero : unpackSign word = 0#1 := by
      apply BitVec.eq_of_toNat_eq
      rw [hbit, BitVec.toNat_zero]
      omega
    rw [Sign.ofBitVec, if_pos hzero, decide_eq_false hle]
    rfl

/-- The two ways to read a double agree. -/
theorem decode_eq (word : BitVec Format.binary64.numBits) : Decimal.double.decode word.toNat =
    match unpack .binary64 word with
    | .notANumber => .nan
    | .infinity s => .infinite (s == .negative)
    | .zero s => .finite (s == .negative) 0 (-1074)
    | .finite s m e _ => .finite (s == .negative) m e := by
  have hmantissa := toNat_unpackMantissa word
  have hexponent := toNat_unpackExponent word
  have hsign := ofBitVec_unpackSign_beq word
  have hlt : word.toNat < 2 ^ 64 := word.isLt
  have hbit : Decimal.double.signBit = 2 ^ 63 := by decide
  have hinf : Decimal.double.infinity = 2047 * 2 ^ 52 := by decide
  have hmin : Decimal.double.minExponent = -1074 := by decide
  have hdigits : Nat.pow 2 Decimal.double.fractionBits = 2 ^ 52 := rfl
  have hbias : (Format.binary64.exponentBias : ℤ) = 1023 := rfl
  have hones : (-1#11).toNat = 2047 := by decide
  simp only at hmantissa hexponent
  have hfull : unpackExponent word = -1#11 ↔
      word.toNat / 2 ^ 52 % 2 ^ 11 = 2047 := by
    rw [← BitVec.toNat_inj, hexponent, hones]
  have hzero : unpackExponent word = 0#11 ↔
      word.toNat / 2 ^ 52 % 2 ^ 11 = 0 := by
    rw [← BitVec.toNat_inj, hexponent, BitVec.toNat_zero]
  have hfraction : unpackMantissa word = 0#52 ↔ word.toNat % 2 ^ 52 = 0 := by
    rw [← BitVec.toNat_inj, hmantissa, BitVec.toNat_zero]
  unfold Decimal.BinaryFormat.decode unpack
  simp only [hbit, hinf, hmin, hdigits, hbias, toNat_implicit, hmantissa, hexponent]
  rw [← hsign]
  by_cases hx : word.toNat / 2 ^ 52 % 2 ^ 11 = 2047
  · rw [if_pos (hfull.mpr hx)]
    by_cases hm : word.toNat % 2 ^ 52 = 0
    · rw [if_pos (hfraction.mpr hm), if_neg (by omega), if_pos (by omega)]
    · rw [if_neg (hfraction.not.mpr hm), if_pos (by omega)]
  · rw [if_neg (hfull.not.mpr hx), if_neg (by omega), if_neg (by omega)]
    by_cases hx' : word.toNat / 2 ^ 52 % 2 ^ 11 = 0
    · rw [if_pos (hzero.mpr hx'), if_pos (by omega)]
      by_cases hm : word.toNat % 2 ^ 52 = 0
      · rw [dif_pos (hfraction.mpr hm)]
        simp only
        congr 1
        omega
      · rw [dif_neg (hfraction.not.mpr hm)]
        simp only
        congr 1
        · omega
        · omega
    · rw [if_neg (hzero.not.mpr hx'), if_neg (by omega)]
      simp only
      congr 1
      · omega
      · omega

theorem ofPattern_toBits (x : Float) :
    Extended.ofPattern x.toBits.toNat = value x.toModel.unpack := by
  have hdecode : Decimal.double.decode x.toBits.toNat = _ := decode_eq x.toBits.toBitVec
  have hunpack : unpack .binary64 x.toBits.toBitVec = x.toModel.unpack := rfl
  unfold Extended.ofPattern Exact.ofPattern
  rw [hdecode, hunpack]
  cases x.toModel.unpack with
  | zero s => cases s <;> simp [value, Exact.signed]
  | _ => rfl

/-! ## Truncation -/

/-- The whole part of what a number is brought to by restricting it to the range of a byte. -/
def level : Extended → ℕ
  | .finite q => ⌊max 0 (min q 255)⌋₊
  | .infinite negative => if negative then 0 else 255
  | .nan => 0

theorem level_of_nonpos {q : ℚ} (h : q ≤ 0) : level (.finite q) = 0 := by
  rw [level, max_eq_left ((min_le_left q 255).trans h), Nat.floor_zero]

theorem level_of_nonneg {q : ℚ} (h : 0 ≤ q) : level (.finite q) = min ⌊q⌋₊ 255 := by
  rw [level, max_eq_right (le_min h (by norm_num)), Nat.floor_mono.map_min]
  rfl

theorem level_of_le {q : ℚ} (h : 255 ≤ q) : level (.finite q) = 255 := by
  rw [level, min_eq_right h, max_eq_right (by norm_num)]
  rfl

theorem level_of_negative {m : ℕ} {e : ℤ} {hm : 0 < m} :
    level (value (.finite .negative m e hm)) = 0 := by
  have hpos : (0 : ℚ) ≤ m * 2 ^ e := by positivity
  exact level_of_nonpos (neg_nonpos.mpr hpos)

theorem roundToInt_positive (m : ℕ) (e : ℤ) :
    roundToInt .positive m e = ⌊(m * (2 : ℚ) ^ e)⌋₊ := by
  have hmantissa : roundToInt .positive m e =
      ((m <<< e.toNat / 2 ^ (0 - (e - (e - 0).toNat)).toNat : ℕ) : ℤ) := by
    unfold roundToInt decreaseExponent shiftToExponent
    simp only [mantissa_shiftRight, mantissa_ofMantissaAndAccuracy, sub_zero]
    rfl
  rw [hmantissa, Nat.shiftLeft_eq]
  congr 1
  obtain ⟨k, rfl | rfl⟩ := e.eq_nat_or_neg
  · have hback : (0 - ((k : ℤ) - ((k : ℤ) - 0).toNat)).toNat = 0 := by omega
    rw [hback, Int.toNat_natCast, Nat.pow_zero, Nat.div_one, zpow_natCast]
    exact_mod_cast (Nat.floor_natCast (m * 2 ^ k)).symm
  · have hback : (0 - (-(k : ℤ) - (-(k : ℤ) - 0).toNat)).toNat = k := by omega
    have hforth : (-(k : ℤ)).toNat = 0 := by omega
    rw [hback, hforth, Nat.pow_zero, Nat.mul_one, zpow_neg, zpow_natCast, ← div_eq_mul_inv]
    exact_mod_cast (Nat.floor_div_eq_div (K := ℚ) m (2 ^ k)).symm

theorem toNat_ofNatClamp (n : ℕ) : (UInt8.ofNatClamp n).toNat = min n 255 := by
  unfold UInt8.ofNatClamp
  split
  · next h =>
    have hsize : UInt8.size = 256 := rfl
    rw [UInt8.toNat_ofNatLT]
    omega
  · next h =>
    have hsize : UInt8.size = 256 := rfl
    rw [UInt8.toNat_ofNatLT]
    omega

theorem roundToInt_negative (m : ℕ) (e : ℤ) :
    roundToInt .negative m e = -roundToInt .positive m e := rfl

theorem toNat_toUInt8 (u : UnpackedFloat) : u.toUInt8.toNat = level (value u) := by
  rw [toUInt8, toNat_ofNatClamp]
  cases u with
  | notANumber => rfl
  | infinity s => cases s <;> rfl
  | zero s =>
    rw [value, level_of_nonpos le_rfl]
    rfl
  | finite s m e hm =>
    cases s with
    | negative =>
      rw [level_of_negative, toInt, roundToInt_negative, roundToInt_positive]
      omega
    | positive =>
      have hpos : (0 : ℚ) ≤ m * 2 ^ e := by positivity
      have hvalue : value (.finite .positive m e hm) = .finite (m * 2 ^ e) := rfl
      rw [hvalue, level_of_nonneg hpos, toInt, roundToInt_positive, Int.toNat_natCast]

/-! ## Bounds -/

theorem two_pow_le {m : ℕ} (hm : m ≠ 0) {e : ℤ} {k : ℕ} (h : (k : ℤ) ≤ m.log2 + e) :
    (2 : ℚ) ^ k ≤ m * 2 ^ e := by
  have hlow : (2 : ℚ) ^ m.log2 ≤ m := by exact_mod_cast Nat.log2_self_le hm
  have hscale : (2 : ℚ) ^ (k - m.log2 : ℤ) ≤ 2 ^ e :=
    zpow_le_zpow_right₀ (by norm_num) (by omega)
  calc (2 : ℚ) ^ k = 2 ^ m.log2 * 2 ^ (k - m.log2 : ℤ) := by
        rw [← zpow_natCast, ← zpow_natCast, ← zpow_add₀ two_ne_zero, add_sub_cancel]
    _ ≤ m * 2 ^ e := by gcongr

theorem level_packComponents_negative (exponent : BitVec 11) (fraction : BitVec 52) :
    level (value (unpack .binary64 (packComponents .binary64 .negative exponent fraction))) =
      0 := by
  unfold unpack
  simp only [unpackExponent_packComponents, unpackMantissa_packComponents,
    unpackSign_packComponents, Sign.ofBitVec_toBitVec]
  split
  · split <;> rfl
  · split
    · split
      · rfl
      · exact level_of_negative
    · exact level_of_negative

theorem level_pack_negative {m : ℕ} {e : ℤ} {hm : 0 < m} :
    level (value (unpack .binary64 (pack .binary64 (.finite .negative m e hm)))) = 0 := by
  unfold pack
  simp only
  split
  · exact level_packComponents_negative _ _
  · split
    · exact level_packComponents_negative _ _
    · exact level_packComponents_negative _ _

/-- Only the smallest numbers have fewer digits than the format allows. -/
theorem le_log2_of_unpack {word : BitVec Format.binary64.numBits} {s : Sign} {m : ℕ} {e : ℤ}
    {hm : 0 < m} (h : unpack .binary64 word = .finite s m e hm) : 52 ≤ m.log2 ∨ e = -1074 := by
  have hbias : (Format.binary64.exponentBias : ℤ) = 1023 := rfl
  unfold unpack at h
  simp only [hbias] at h
  split at h
  · split at h <;> cases h
  · split at h
    · next hzero =>
      split at h
      · cases h
      · injection h with _ _ hexponent
        rw [hzero, BitVec.toNat_zero] at hexponent
        exact .inr (by omega)
    · injection h with _ hmantissa _
      exact .inl (hmantissa ▸ log2_implicit _).ge

theorem lt_iff {x y : Float} : x < y ↔ x.toModel.unpack.lt y.toModel.unpack = true :=
  decide_eq_true_iff

theorem unpack_zero : (0 : Float).toModel.unpack = .zero .positive := rfl

theorem unpack_255 : (255 : Float).toModel.unpack =
    .finite .positive (255 * 2 ^ 45) (-45) (by decide) := rfl

theorem level_of_lt_zero {x : Float} (h : x < 0) : level (value x.toModel.unpack) = 0 := by
  rw [lt_iff, unpack_zero] at h
  generalize x.toModel.unpack = u at h
  cases u with
  | notANumber => cases h
  | infinity s =>
    cases s with
    | positive => cases h
    | negative => rfl
  | zero s => cases h
  | finite s m e hm =>
    cases s with
    | positive => cases h
    | negative => exact level_of_negative

/-- Exponents are compared before mantissas, which is right for numbers of full length. -/
theorem le_of_255_lt {m : ℕ} {e : ℤ} {hm : 0 < m} (hlong : 52 ≤ m.log2 ∨ e = -1074)
    (h : (UnpackedFloat.finite .positive (255 * 2 ^ 45) (-45) (by decide)).lt
      (.finite .positive m e hm) = true) : (255 : ℚ) ≤ m * 2 ^ e := by
  have hless : (compare (-45 : ℤ) e).then (compare (255 * 2 ^ 45) m) = .lt :=
    Option.some.inj (eq_of_beq h)
  rcases Ordering.then_eq_lt.mp hless with he | ⟨he, hm'⟩
  · have he : -45 < e := Int.compare_eq_lt.mp he
    have hlog : 52 ≤ m.log2 := hlong.resolve_right (by omega)
    calc (255 : ℚ) ≤ 2 ^ 8 := by norm_num
      _ ≤ m * 2 ^ e := two_pow_le hm.ne' (by omega)
  · obtain rfl : -45 = e := Int.compare_eq_eq.mp he
    have hlow : (255 * 2 ^ 45 : ℚ) ≤ m := by exact_mod_cast (Nat.compare_eq_lt.mp hm').le
    calc (255 : ℚ) = 255 * 2 ^ 45 * 2 ^ (-45 : ℤ) := by norm_num
      _ ≤ m * 2 ^ (-45 : ℤ) := by gcongr

theorem level_of_255_lt {x : Float} (h : 255 < x) : level (value x.toModel.unpack) = 255 := by
  rw [lt_iff, unpack_255] at h
  generalize hu : x.toModel.unpack = u at h
  cases u with
  | notANumber => cases h
  | infinity s =>
    cases s with
    | positive => rfl
    | negative => cases h
  | zero s => cases h
  | finite s m e hm =>
    cases s with
    | positive => exact level_of_le (le_of_255_lt (le_log2_of_unpack hu) h)
    | negative => cases h

/-! ## Whole numbers -/

theorem targetExponent_binary64 (m : ℕ) (e : ℤ) :
    Format.binary64.targetExponent (totalExponent m e) = max (m.log2 + e - 52) (-1074) :=
  targetExponent_eq .binary64 m e

theorem minExponent_binary64 : Format.binary64.minExponent = -1074 := rfl

theorem log2_mul_pow {m : ℕ} (hm : m ≠ 0) (k : ℕ) : (m * 2 ^ k).log2 = m.log2 + k := by
  rw [Nat.log2_eq_iff (by positivity)]
  have hlow := Nat.log2_self_le hm
  have hhigh := Nat.lt_log2_self (n := m)
  constructor
  · rw [Nat.pow_add]
    exact Nat.mul_le_mul_right _ hlow
  · rw [Nat.add_right_comm, Nat.pow_add]
    exact Nat.mul_lt_mul_of_pos_right hhigh (by positivity)

/-- A whole number of 64 bits has the same first digit as a double, and all others if they fit. -/
theorem unpack_pack_round (s : Sign) {m : ℕ} (hm : m ≠ 0) (hsize : m.log2 < 64) : ∃ m' e' h,
    unpack .binary64 (pack .binary64 (UnpackedFloat.round .binary64 s m 0)) = .finite s m' e' h ∧
      (2 : ℚ) ^ m.log2 ≤ m' * 2 ^ e' ∧ (m.log2 ≤ 52 → (m' : ℚ) * 2 ^ e' = m) := by
  obtain ⟨k, hk⟩ : ∃ k, k = 52 - m.log2 := ⟨_, rfl⟩
  have hround : UnpackedFloat.round .binary64 s m 0 =
      roundWithAccuracy .binary64 s (m * 2 ^ k) (-k) .exact := by
    have hshift : (-max ((m.log2 : ℤ) + 0 - 52) (-1074)).toNat = k := by omega
    unfold UnpackedFloat.round decreaseExponent
    simp only [targetExponent_binary64, zero_sub, hshift, Nat.shiftLeft_eq]
  have hlog := log2_mul_pow hm k
  have hsmallest : Format.binary64.minExponent ≤ (m * 2 ^ k).log2 + -(k : ℤ) := by
    rw [minExponent_binary64]
    omega
  obtain ⟨m', e', hm', hresult, hrounded⟩ :=
    roundWithAccuracy_eq_finite (by positivity) hsmallest .exact s
  have hlow := hrounded.le_leading
  have hhigh := hrounded.leading_le
  have hcanonical := hrounded.canonical (by rw [targetExponent_binary64]; omega)
  rw [targetExponent_binary64] at hcanonical
  have hbias : (Format.binary64.exponentBias : ℤ) = 1023 := rfl
  refine ⟨m', e', hm', ?_, ?_, ?_⟩
  · rw [hround, hresult]
    refine unpack_pack_normal hm' s ?_ ?_ ?_
    · simp only
      omega
    · simp only [hbias]
      omega
    · simp only [hbias]
      omega
  · exact two_pow_le hm'.ne' (by omega)
  · intro hshort
    have hexact : Format.binary64.targetExponent (totalExponent (m * 2 ^ k) (-k)) = -k := by
      rw [targetExponent_binary64]
      omega
    rw [roundWithAccuracy_of_canonical (by positivity) hexact] at hresult
    injection hresult with _ hmantissa hexponent
    rw [← hmantissa, ← hexponent, zpow_neg, zpow_natCast]
    push_cast
    exact mul_inv_cancel_right₀ (by positivity) _

theorem ofNat_of_ne_zero {n : ℕ} (h : n ≠ 0) :
    ofNat .binary64 n = UnpackedFloat.round .binary64 .positive n 0 := by
  have hpos : (0 : ℤ) < n := by omega
  rw [ofNat, ofInt, UnpackedFloat.normalize, Int.compare_eq_gt.mpr hpos]
  rfl

theorem unpack_toFloat (n : UInt64) : n.toFloat.toModel.unpack =
    unpack .binary64 (pack .binary64 (ofNat .binary64 n.toNat)) := rfl

theorem unpack_neg (x : Float) :
    (-x).toModel.unpack = unpack .binary64 (pack .binary64 x.toModel.unpack.neg) := rfl

theorem unpack_toFloat_of_ne_zero {n : UInt64} (hn : n.toNat ≠ 0) : ∃ m e h,
    n.toFloat.toModel.unpack = .finite .positive m e h ∧ (2 : ℚ) ^ n.toNat.log2 ≤ m * 2 ^ e ∧
      (n.toNat.log2 ≤ 52 → (m : ℚ) * 2 ^ e = n.toNat) := by
  rw [unpack_toFloat, ofNat_of_ne_zero hn]
  exact unpack_pack_round .positive hn ((Nat.log2_lt hn).mpr n.toNat_lt)

/-- Rounding a whole number to a double does not change what it is brought to as a byte. -/
theorem level_toFloat_whole (n : UInt64) :
    level (value n.toFloat.toModel.unpack) = level (.finite n.toNat) := by
  rcases eq_or_ne n.toNat 0 with hzero | hn
  · rw [unpack_toFloat, hzero]
    rfl
  · obtain ⟨m, e, hm, hresult, hlow, hexact⟩ := unpack_toFloat_of_ne_zero hn
    rw [hresult]
    change level (.finite (m * 2 ^ e)) = _
    by_cases hshort : n.toNat.log2 ≤ 52
    · rw [hexact hshort]
    · have hbig : (255 : ℚ) ≤ 2 ^ n.toNat.log2 := calc
        (255 : ℚ) ≤ 2 ^ 8 := by norm_num
        _ ≤ 2 ^ n.toNat.log2 := pow_le_pow_right₀ (by norm_num) (by omega)
      have hself : (2 : ℚ) ^ n.toNat.log2 ≤ n.toNat := by exact_mod_cast Nat.log2_self_le hn
      rw [level_of_le (hbig.trans hlow), level_of_le (hbig.trans hself)]

theorem level_toFloat_neg {n : UInt64} (hn : n.toNat ≠ 0) :
    level (value (-n.toFloat).toModel.unpack) = 0 := by
  obtain ⟨m, e, hm, hresult, -⟩ := unpack_toFloat_of_ne_zero hn
  rw [unpack_neg, hresult]
  exact level_pack_negative

theorem toUInt64_neg_ne_zero {n : Int64} (h : n < 0) : (-n).toUInt64.toNat ≠ 0 := by
  intro hzero
  have hbits : (-n).toUInt64 = 0 := UInt64.toNat_inj.mp hzero
  have hneg : -n = 0 := congrArg UInt64.toInt64 hbits
  have hn : n = 0 := by rw [← Int64.neg_neg (a := n), hneg, Int64.neg_zero]
  rw [hn] at h
  exact absurd h (by decide)

theorem toNat_toUInt64 {n : Int64} (h : 0 ≤ n) : (n.toUInt64.toNat : ℤ) = n.toInt := by
  rw [Int64.toNat_toUInt64_of_le h, Int64.toInt_eq_toNatClampNeg h]

/-- So for every number of a document it does not matter that it is first read as a double. -/
theorem level_toFloat (n : Number) :
    level (value n.toFloat.toModel.unpack) = level (.ofNumber n) := by
  cases n with
  | whole n => exact level_toFloat_whole n
  | negative n =>
    unfold Number.toFloat Extended.ofNumber
    simp only
    split
    · next hneg =>
      have hint : (n.toInt : ℚ) ≤ 0 := by exact_mod_cast (Int64.lt_iff_toInt_lt.mp hneg).le
      rw [level_toFloat_neg (toUInt64_neg_ne_zero hneg), level_of_nonpos hint]
    · next hneg =>
      have hint : (n.toUInt64.toNat : ℚ) = n.toInt := by
        exact_mod_cast toNat_toUInt64 (Int64.not_lt.mp hneg)
      rw [level_toFloat_whole, hint]
  | real x => exact congrArg level (ofPattern_toBits x).symm

end Folio.Doubles
