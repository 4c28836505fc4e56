import Mathlib
import ObliviousRam.Oram.Creation

namespace ObliviousRam

open Float.Model Float.Model.UnpackedFloat

namespace Binary64

/-- The float is `mantissa * 2 ^ exponent`, with the leading bit of the mantissa set. -/
structure Normal (f : Float) (mantissa : Nat) (exponent : Int) : Prop where
  low : 2 ^ 52 ≤ mantissa
  high : mantissa < 2 ^ 53
  unpack : ∃ hpos, f.toModel.unpack = .finite .positive mantissa exponent hpos

section

variable {m : Nat} {e : Int} (low : 2 ^ 52 ≤ m) (high : m < 2 ^ 53)
include low high

theorem log2_mantissa : m.log2 = 52 := (Nat.log2_eq_iff (by omega)).2 ⟨low, high⟩

theorem pack_eq (hmax : e < 972) (hpos : 0 < m) :
    UnpackedFloat.pack Format.binary64 (.finite .positive m e hpos) =
      packComponents Format.binary64 .positive (BitVec.ofNat 11 (e + 1075).toNat)
        (BitVec.ofNat 52 m) := by
  have hexp : (e + Format.binary64.exponentBias +
      Format.binary64.mantissaBitsWithoutImplicit).toNat = (e + 1075).toNat :=
    congrArg Int.toNat (Int.add_assoc e 1023 52)
  have hsmall : ¬2 ^ 11 ≤ (e + 1075).toNat + 1 := by omega
  have hnormal : m.log2 + 1 = Format.binary64.mantissaBits := by
    rw [log2_mantissa low high]
    rfl
  rw [UnpackedFloat.pack]
  simp only [hexp]
  rw [if_neg hsmall, if_pos hnormal]

omit low high in
theorem toNat_one_append (b : BitVec 52) : (1#1 ++ b).toNat = 2 ^ 52 + b.toNat := by
  rw [BitVec.toNat_append, ← Nat.shiftLeft_add_eq_or_of_lt b.isLt, Nat.shiftLeft_eq]
  rfl

omit low high in
theorem unpackSign_positive (exponent : BitVec 11) (mantissa : BitVec 52) :
    Sign.ofBitVec (unpackSign (packComponents Format.binary64 .positive exponent mantissa)) =
      .positive := by
  simp only [unpackSign, packComponents, BitVec.extractLsb]
  rw [BitVec.extractLsb'_append_eq_of_le (by omega), BitVec.extractLsb'_append_eq_of_le (by omega)]
  rfl

theorem unpack_pack (hmin : -1074 ≤ e) (hmax : e < 972) (hpos : 0 < m) :
    (pack (.finite .positive m e hpos)).unpack = .finite .positive m e hpos := by
  have hexp : (BitVec.ofNat 11 (e + 1075).toNat).toNat = (e + 1075).toNat := by
    rw [BitVec.toNat_ofNat, Nat.mod_eq_of_lt (by omega)]
  -- Neither the exponent of the infinities nor that of the subnormal numbers.
  have hne : ∀ x : BitVec 11, x.toNat = 0 ∨ x.toNat = 2047 →
      BitVec.ofNat 11 (e + 1075).toNat ≠ x := by
    rintro x hx rfl
    rw [hexp] at hx
    omega
  have hmantissa : (1#1 ++ BitVec.ofNat 52 m).toNat = m := by
    rw [toNat_one_append, BitVec.toNat_ofNat]
    omega
  have hback : ((e + 1075).toNat : Int) -
      (Format.binary64.exponentBias + Format.binary64.mantissaBitsWithoutImplicit : Int) = e := by
    change ((e + 1075).toNat : Int) - (1023 + 52) = e
    omega
  rw [Float.Model.unpack, Float.Model.pack]
  simp only [pack_eq low high hmax hpos]
  rw [UnpackedFloat.unpack]
  simp only [unpackExponent_packComponents, unpackMantissa_packComponents,
    if_neg (hne (-1#11) (.inr rfl)), if_neg (hne 0#11 (.inl rfl)), unpackSign_positive, hexp, hback,
    hmantissa]

end

theorem shiftRight_exact (n m : Nat) :
    (⟨2 ^ n * m, false, false⟩ : ExtendedMantissa) >>> n = ⟨m, false, false⟩ := by
  induction n generalizing m with
  | zero =>
    rw [Nat.pow_zero, Nat.one_mul]
    rfl
  | succ n ih =>
    have hhalf : (2 * m) / 2 = m := by omega
    have heven : (2 * m) % 2 = 0 := by omega
    change ((⟨2 ^ (n + 1) * m, false, false⟩ : ExtendedMantissa) >>> n).shiftRightOne = _
    rw [Nat.pow_succ, Nat.mul_assoc, ih, ExtendedMantissa.shiftRightOne]
    simp only [hhalf, heven]
    rfl

theorem mantissa_shiftRight (em : ExtendedMantissa) (n : Nat) :
    (em >>> n).mantissa = em.mantissa / 2 ^ n := by
  induction n with
  | zero => exact (Nat.div_one _).symm
  | succ n ih =>
    change (em >>> n).mantissa / 2 = _
    rw [ih, Nat.div_div_eq_div_mul, Nat.pow_succ]

section

variable {m : Nat} {e : Int} (low : 2 ^ 52 ≤ m) (high : m < 2 ^ 53) (n : Nat)
  (hmin : -1074 ≤ e + n)
include low high hmin

theorem shift_exact : shiftToTargetExponent Format.binary64 (2 ^ n * m) e .exact =
    (⟨m, false, false⟩, e + n) := by
  have hlog : (2 ^ n * m).log2 = n + 52 := by
    have hn := Nat.two_pow_pos n
    have hpos : 0 < 2 ^ n * m := Nat.mul_pos hn (by omega)
    rw [Nat.log2_eq_iff (Nat.ne_of_gt hpos), Nat.pow_add, Nat.add_assoc, Nat.pow_add]
    exact ⟨Nat.mul_le_mul_left _ low, Nat.mul_lt_mul_of_pos_left high hn⟩
  have htarget : Format.binary64.targetExponent (totalExponent (2 ^ n * m) e) = e + n := by
    rw [Format.targetExponent, totalExponent, hlog]
    change max (((n + 52 : Nat) : Int) + 1 + e - 53) (-1074) = _
    omega
  have hamount : (e + n - e).toNat = n := by omega
  rw [shiftToTargetExponent]
  simp only [htarget, shiftToExponent, hamount, ExtendedMantissa.ofMantissaAndAccuracy,
    shiftRight_exact]

theorem round_exact (hpos : 0 < m) :
    roundWithAccuracy Format.binary64 .positive (2 ^ n * m) e .exact =
      .finite .positive m (e + n) hpos := by
  -- The second shift is there for mantissas that grow as they are rounded.
  have hagain := shift_exact (e := e + n) low high 0 (by omega)
  rw [Nat.pow_zero, Nat.one_mul, Int.natCast_zero, Int.add_zero] at hagain
  have hrounded : (⟨m, false, false⟩ : ExtendedMantissa).roundedMantissa = m := rfl
  rw [roundWithAccuracy]
  simp only [shift_exact low high n hmin, hrounded, hagain]
  rw [dif_neg (Nat.ne_of_gt hpos)]

end

theorem normal_two_pow {k : Nat} (hk : k < 63) :
    Normal (Float.ofNat (2 ^ k)) (2 ^ 52) (k - 52) := by
  have hmodel : ∀ k < 63, (Float.ofNat (2 ^ k)).toModel =
      pack (.finite .positive (2 ^ 52) ((k : Nat) - 52) (by decide)) := by decide +kernel
  refine ⟨by decide, by decide, by decide, ?_⟩
  rw [hmodel k hk, unpack_pack (by decide) (by decide) (by omega) (by omega)]

theorem Normal.two_pow_mul {f : Float} {m : Nat} {e : Int} (h : Normal f m e) {k : Nat} (hk : k < 63)
    (hmin : -1074 ≤ e + k) (hmax : e + k < 972) :
    Normal (Float.ofNat (2 ^ k) * f) m (e + k) := by
  obtain ⟨low, high, hpos, hunpack⟩ := h
  obtain ⟨-, -, _, hpow⟩ := normal_two_pow hk
  have hexp : (k : Int) - 52 + e + (52 : Nat) = e + k := by omega
  have hround := round_exact (e := k - 52 + e) low high 52 (by omega) hpos
  rw [hexp] at hround
  refine ⟨low, high, hpos, ?_⟩
  change (pack (UnpackedFloat.mul Format.binary64 _ _)).unpack = _
  rw [hpow, hunpack, UnpackedFloat.mul]
  change (pack (roundWithAccuracy Format.binary64 .positive _ _ _)).unpack = _
  rw [hround, unpack_pack low high hmin hmax]

theorem roundToInt_eq (m k s : Nat) :
    roundToInt .positive m (k - s) = ((m * 2 ^ k / 2 ^ s : Nat) : Int) := by
  have hleft : ((k : Int) - s - 0).toNat = k - s := by omega
  have hright : (0 - ((k : Int) - s - (k - s : Nat))).toNat = s - k := by omega
  rw [roundToInt]
  simp only [decreaseExponent, hleft, shiftToExponent, hright, mantissa_shiftRight,
    ExtendedMantissa.ofMantissaAndAccuracy, Nat.shiftLeft_eq]
  change ((m * 2 ^ (k - s) / 2 ^ (s - k) : Nat) : Int) = _
  congr 1
  obtain hle | hle := Nat.le_total s k
  · obtain ⟨d, rfl⟩ := Nat.exists_eq_add_of_le hle
    rw [Nat.add_sub_cancel_left, Nat.sub_eq_zero_of_le hle, Nat.pow_zero, Nat.div_one, Nat.pow_add,
      Nat.mul_left_comm, Nat.mul_div_cancel_left _ (Nat.two_pow_pos s)]
  · obtain ⟨d, rfl⟩ := Nat.exists_eq_add_of_le hle
    rw [Nat.add_sub_cancel_left, Nat.sub_eq_zero_of_le hle, Nat.pow_zero, Nat.mul_one, Nat.pow_add,
      Nat.mul_comm m, Nat.mul_div_mul_left _ _ (Nat.two_pow_pos k)]

theorem Normal.toNat_toUInt64 {f : Float} {m k s : Nat} (h : Normal f m (k - s))
    (hlt : m * 2 ^ k / 2 ^ s < 2 ^ 64) : f.toUInt64.toNat = m * 2 ^ k / 2 ^ s := by
  obtain ⟨low, high, hpos, hunpack⟩ := h
  change (UInt64.ofNatClamp (f.toModel.unpack.toInt 0 (UInt64.size - 1)).toNat).toNat = _
  rw [hunpack, toInt, roundToInt_eq, Int.toNat_natCast, UInt64.ofNatClamp, dif_pos hlt]
  rfl

theorem mantissa_of_unpack {b : BitVec 64} {sign : Sign} {m : Nat} {e : Int} {hpos : 0 < m}
    (h : UnpackedFloat.unpack Format.binary64 b = .finite sign m e hpos) :
    (2 ^ 52 ≤ m ∧ m < 2 ^ 53) ∨ e = -1074 := by
  rw [UnpackedFloat.unpack] at h
  split at h
  · split at h
    all_goals cases h
  split at h
  next hzero =>
    split at h
    · cases h
    · cases h
      rw [hzero]
      exact .inr rfl
  · injection h with _ hmantissa _
    have hlt := (@unpackMantissa Format.binary64 b).isLt
    rw [toNat_one_append] at hmantissa
    omega

theorem unpack_one : (1.0 : Float).toModel.unpack = .finite .positive (2 ^ 52) (-52) (by decide) := rfl

theorem unpack_three :
    (3.0 : Float).toModel.unpack = .finite .positive (3 * 2 ^ 51) (-51) (by decide) := rfl

theorem exists_normal {f : Float} (hlow : 1.0 ≤ f) (hhigh : f ≤ 3.0) :
    ∃ m s : Nat, Normal f m (-s) ∧ s ≤ 52 ∧ 2 ^ s ≤ m ∧ m ≤ 3 * 2 ^ s := by
  have hlow : (1.0 : Float).toModel.unpack.le f.toModel.unpack = true := of_decide_eq_true hlow
  have hhigh : f.toModel.unpack.le (3.0 : Float).toModel.unpack = true := of_decide_eq_true hhigh
  rw [unpack_one] at hlow
  rw [unpack_three] at hhigh
  cases hf : f.toModel.unpack with
  | notANumber | zero =>
    rw [hf] at hlow
    cases hlow
  | infinity sign =>
    rw [hf] at hlow hhigh
    cases sign with
    | negative => cases hlow
    | positive => cases hhigh
  | finite sign m e hpos =>
    rw [hf] at hlow hhigh
    cases sign with
    | negative => cases hlow
    | positive =>
      have hlow : ((compare (-52) e).then (compare (2 ^ 52) m)).isLE = true := hlow
      have hhigh : ((compare e (-51)).then (compare m (3 * 2 ^ 51))).isLE = true := hhigh
      rw [Ordering.isLE_then_iff_or] at hlow hhigh
      simp only [Std.isLE_compare, Int.compare_eq_lt, Int.compare_eq_eq] at hlow hhigh
      have hbits := mantissa_of_unpack hf
      obtain rfl | rfl : e = -52 ∨ e = -51 := by omega
      · exact ⟨m, 52, ⟨by omega, by omega, hpos, hf⟩, by omega, by omega, by omega⟩
      · exact ⟨m, 51, ⟨by omega, by omega, hpos, hf⟩, by omega, by omega, by omega⟩

end Binary64

namespace Oram

variable {loadFactor : Float} (hlow : 1.0 ≤ loadFactor) (hhigh : loadFactor ≤ 3.0)
include hlow hhigh

/-- The number of blocks is the product of the number of leaves and the load factor, rounded down. -/
theorem exists_scale : ∃ m s, 2 ^ s ≤ m ∧ m ≤ 3 * 2 ^ s ∧
    ∀ levels ≤ 63, blocksFor loadFactor levels = m * 2 ^ (levels - 1) / 2 ^ s := by
  obtain ⟨m, s, hnormal, hs, hone, hthree⟩ := Binary64.exists_normal hlow hhigh
  refine ⟨m, s, hone, hthree, fun levels hlevels => ?_⟩
  have hscaled := hnormal.two_pow_mul (k := levels - 1) (by omega) (by omega) (by omega)
  rw [Int.add_comm, ← Int.sub_eq_add_neg] at hscaled
  rw [blocksFor, hscaled.toNat_toUInt64]
  have hpow : 2 ^ (levels - 1) ≤ 2 ^ 62 := Nat.pow_le_pow_right (by decide) (by omega)
  rw [Nat.div_lt_iff_lt_mul (Nat.two_pow_pos s)]
  calc m * 2 ^ (levels - 1) ≤ 3 * 2 ^ s * 2 ^ 62 := Nat.mul_le_mul hthree hpow
    _ < 2 ^ 64 * 2 ^ s := by
      have := Nat.two_pow_pos s
      omega

theorem blocksFor_bounds {levels : Nat} (hlevels : levels ≤ 63) :
    2 ^ (levels - 1) ≤ blocksFor loadFactor levels ∧
      blocksFor loadFactor levels ≤ 3 * 2 ^ (levels - 1) := by
  obtain ⟨m, s, hone, hthree, hblocks⟩ := exists_scale hlow hhigh
  have hs := Nat.two_pow_pos s
  rw [hblocks levels hlevels]
  constructor
  · rw [Nat.le_div_iff_mul_le hs, Nat.mul_comm]
    exact Nat.mul_le_mul_right _ hone
  · apply Nat.div_le_of_le_mul
    rw [Nat.mul_left_comm, ← Nat.mul_assoc]
    exact Nat.mul_le_mul_right _ hthree

theorem blocksFor_mono {levels levels' : Nat} (hle : levels ≤ levels') (hlevels' : levels' ≤ 63) :
    blocksFor loadFactor levels ≤ blocksFor loadFactor levels' := by
  obtain ⟨m, s, -, -, hblocks⟩ := exists_scale hlow hhigh
  rw [hblocks levels (Nat.le_trans hle hlevels'), hblocks levels' hlevels']
  apply Nat.div_le_div_right
  apply Nat.mul_le_mul_left
  exact Nat.pow_le_pow_right (by decide) (by omega)

end Oram

end ObliviousRam
