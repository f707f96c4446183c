import PhaseVocoder.Ieee
import Mathlib

/-!
# Binary64 arithmetic as rational arithmetic

Core's float model computes each operation on unpacked floats (sign, mantissa, exponent),
rounds the exact result with `roundWithAccuracy` and packs it into 64 bits; the next operation
unpacks it again. This module reads that code as arithmetic on rationals.

* `unpackedValue` is the number an unpacked float stands for. The unpacked floats that `unpack`
  produces are `Packable`, and packing one and unpacking it gives it back (`unpack_pack`).
* Rounding a value of magnitude at most `2^N` gives a packable float within `2^(N-52)` of it
  (`roundWithAccuracy_error`). The bound is one unit in the last place at that magnitude,
  which needs no case analysis on the rounding direction.
* For doubles, `value` reads the number. Sums, differences and products of finite doubles are
  within `2^(N-52)` of the exact ones (`value_add`, `value_sub`, `value_mul`; a difference is
  the sum with the negation, `model_sub_eq_add_neg`), NaN stays NaN,
  truncation goes toward zero inside the signed 64-bit range and saturates above it
  (`truncInt64_of_range`, `truncInt64_of_ge`), and small integers convert nearly exactly.
* `Within B x` says that `x` is NaN or finite of magnitude at most `B`; bounds of this form
  propagate through the operations (`Within.add` and its siblings).
-/

namespace PhaseVocoder.Ieee

open Float.Model Float.Model.UnpackedFloat

/-! ## Unpacked floats and their values -/

/-- The number an unpacked float stands for; NaN and the infinities stand for none. -/
def unpackedValue : UnpackedFloat → Option ℚ
  | .zero _ => some 0
  | .finite s m e _ => some ((s.apply m : ℚ) * 2 ^ e)
  | _ => none

/-- A mantissa and exponent as `unpack` gives them for binary64: 53 bits with the leading one,
or fewer at the least exponent, and an exponent the 11-bit field can hold. -/
def Canonical (m : Nat) (e : Int) : Prop :=
  m < 2 ^ 53 ∧ -1074 ≤ e ∧ e ≤ 971 ∧ (2 ^ 52 ≤ m ∨ e = -1074)

theorem unpackSign_packComponents {spec : Format} (s : Sign) (e : BitVec spec.exponentBits)
    (m : BitVec spec.mantissaBitsWithoutImplicit) :
    unpackSign (packComponents spec s e m) = s.toBitVec := by
  apply BitVec.eq_of_getLsbD_eq
  intro i hi
  have hi0 : i = 0 := by omega
  subst hi0
  simp only [unpackSign, packComponents, BitVec.getLsbD_cast, BitVec.getLsbD_extractLsb]
  cases s <;> rw [BitVec.getLsbD_append, BitVec.getLsbD_append] <;> simp [Sign.toBitVec]

theorem ofBitVec_toBitVec (s : Sign) : Sign.ofBitVec s.toBitVec = s := by
  cases s <;> rfl

theorem toNat_one_append {w : Nat} (m : BitVec w) : (1#1 ++ m).toNat = 2 ^ w + m.toNat := by
  rw [BitVec.toNat_append, ← Nat.shiftLeft_add_eq_or_of_lt m.isLt]
  simp [Nat.shiftLeft_eq]

theorem ofNat_ne_allOnes {w n : Nat} (h : n + 1 < 2 ^ w) : BitVec.ofNat w n ≠ -1#w := by
  intro h'
  have h'' := congrArg BitVec.toNat h'
  rw [BitVec.toNat_ofNat, Nat.mod_eq_of_lt (by omega), BitVec.neg_one_eq_allOnes,
    BitVec.toNat_allOnes] at h''
  omega

theorem ofNat_ne_zero_of_lt {w n : Nat} (h0 : 0 < n) (h : n < 2 ^ w) :
    BitVec.ofNat w n ≠ 0#w := by
  intro h'
  have h'' := congrArg BitVec.toNat h'
  rw [BitVec.toNat_ofNat, Nat.mod_eq_of_lt h, BitVec.toNat_zero] at h''
  omega

/-- A finite float that the format holds as it is, with a biased exponent below the infinities,
survives packing, in every format: a normal one through its biased exponent and the hidden bit,
a subnormal one through the zero exponent field. -/
theorem unpack_pack_of_fields {spec : Format} {s : Sign} {m : Nat} {e : Int} (hm : 0 < m)
    (hlt : m < 2 ^ spec.mantissaBits) (hlo : spec.minExponent ≤ e)
    (hn : 2 ^ (spec.mantissaBits - 1) ≤ m ∨ e = spec.minExponent)
    (hhi : (e + spec.exponentBias + spec.mantissaBitsWithoutImplicit).toNat + 1 <
      2 ^ spec.exponentBits) :
    UnpackedFloat.unpack spec (UnpackedFloat.pack spec (.finite s m e hm)) = .finite s m e hm := by
  have hmb : spec.mantissaBits = spec.mantissaBitsWithoutImplicit + 1 := by
    simp [Format.mantissaBits]; omega
  have hbias : (spec.exponentBias : Int) = 2 ^ (spec.exponentBits - 1) - 1 := by
    have : 1 ≤ 2 ^ (spec.exponentBits - 1) := Nat.one_le_two_pow
    simp only [Format.exponentBias]; push_cast [this]; ring
  have hmin : spec.minExponent = 1 - spec.exponentBias - spec.mantissaBitsWithoutImplicit := by
    simp only [Format.minExponent, hbias, hmb]; push_cast; ring
  have hlog : m.log2 < spec.mantissaBits := (Nat.log2_lt hm.ne').mpr hlt
  have hw' : 2 ^ (spec.mantissaBits - 1) = 2 ^ spec.mantissaBitsWithoutImplicit := by
    rw [hmb, Nat.add_sub_cancel]
  unfold UnpackedFloat.pack
  dsimp only
  rw [if_neg (by omega)]
  by_cases hnorm : 2 ^ (spec.mantissaBits - 1) ≤ m
  · -- normal: the biased exponent is positive and below all ones
    have hl : m.log2 + 1 = spec.mantissaBits := by
      have := (Nat.le_log2 hm.ne').mpr hnorm
      omega
    rw [if_pos hl]
    have hw : 2 ^ spec.mantissaBits = 2 ^ spec.mantissaBitsWithoutImplicit * 2 := by
      rw [hmb, Nat.pow_succ]
    unfold UnpackedFloat.unpack
    simp only [unpackMantissa_packComponents, unpackExponent_packComponents,
      unpackSign_packComponents, ofBitVec_toBitVec]
    rw [if_neg (ofNat_ne_allOnes hhi), if_neg (ofNat_ne_zero_of_lt (by omega) (by omega))]
    congr 1
    · rw [toNat_one_append, BitVec.toNat_ofNat, Nat.mod_eq_sub_mod (by omega),
        Nat.mod_eq_of_lt (by omega)]
      omega
    · rw [BitVec.toNat_ofNat, Nat.mod_eq_of_lt (by omega)]
      omega
  · -- subnormal: the exponent is the least one and the field is zero
    have he : e = spec.minExponent := hn.resolve_left hnorm
    have hl : ¬ m.log2 + 1 = spec.mantissaBits := by
      have := (Nat.log2_lt hm.ne').mpr (show m < 2 ^ (spec.mantissaBits - 1) by omega)
      omega
    rw [if_neg hl]
    unfold UnpackedFloat.unpack
    simp only [unpackMantissa_packComponents, unpackExponent_packComponents,
      unpackSign_packComponents, ofBitVec_toBitVec]
    rw [if_neg (ofNat_ne_allOnes (Nat.one_lt_two_pow spec.he.ne')), if_true,
      dif_neg (ofNat_ne_zero_of_lt hm (by omega))]
    congr 1
    · rw [BitVec.toNat_ofNat, Nat.mod_eq_of_lt (by omega)]
    · rw [he, hmin, BitVec.toNat_zero]
      push_cast
      ring

theorem unpack_pack_finite {s : Sign} {m : Nat} {e : Int} (hm : 0 < m) (hc : Canonical m e) :
    (Float.Model.pack (.finite s m e hm)).unpack = .finite s m e hm := by
  obtain ⟨hlt, hlo, hhi, hn⟩ := hc
  exact unpack_pack_of_fields hm hlt hlo hn
    (show (e + (1023 : Nat) + (52 : Nat)).toNat + 1 < 2 ^ 11 by omega)

theorem unpack_pack_zero (s : Sign) : (Float.Model.pack (.zero s)).unpack = .zero s := by
  unfold Float.Model.unpack Float.Model.pack
  change UnpackedFloat.unpack Format.binary64 (packComponents Format.binary64 s 0#11 0#52) = _
  unfold UnpackedFloat.unpack
  simp only [unpackMantissa_packComponents, unpackExponent_packComponents,
    unpackSign_packComponents, ofBitVec_toBitVec]
  rfl

theorem unpack_pack_infinity (s : Sign) :
    (Float.Model.pack (.infinity s)).unpack = .infinity s := by
  unfold Float.Model.unpack Float.Model.pack
  change UnpackedFloat.unpack Format.binary64 (packComponents Format.binary64 s (-1#11) 0#52) = _
  unfold UnpackedFloat.unpack
  simp only [unpackMantissa_packComponents, unpackExponent_packComponents,
    unpackSign_packComponents, ofBitVec_toBitVec]
  rfl

theorem unpack_pack_nan : (Float.Model.pack .notANumber).unpack = .notANumber := by
  unfold Float.Model.unpack Float.Model.pack
  change UnpackedFloat.unpack Format.binary64
    (packComponents Format.binary64 .positive (-1#11) (1#52 <<< 51)) = _
  unfold UnpackedFloat.unpack
  simp only [unpackMantissa_packComponents, unpackExponent_packComponents]
  rfl

/-- The unpacked floats that `unpack` produces: canonical finite floats, zeros, infinities and
NaN. -/
def Packable : UnpackedFloat → Prop
  | .finite _ m e _ => Canonical m e
  | _ => True

theorem unpack_pack {u : UnpackedFloat} (h : Packable u) : (Float.Model.pack u).unpack = u := by
  cases u with
  | infinity s => exact unpack_pack_infinity s
  | notANumber => exact unpack_pack_nan
  | zero s => exact unpack_pack_zero s
  | finite s m e hm => exact unpack_pack_finite hm h

theorem packable_unpack (v : Float.Model) : Packable v.unpack := by
  unfold Float.Model.unpack UnpackedFloat.unpack
  dsimp only
  split
  · split <;> trivial
  · rename_i hinf
    split
    · rename_i hzero
      split
      · trivial
      · have hb := (@unpackMantissa Format.binary64 v.toBits.toBitVec).isLt
        change _ < 2 ^ 52 at hb
        simp only [Packable, Canonical, hzero, BitVec.toNat_zero, Format.exponentBias]
        omega
    · rename_i hzero
      have hb := (@unpackMantissa Format.binary64 v.toBits.toBitVec).isLt
      have he := (@unpackExponent Format.binary64 v.toBits.toBitVec).isLt
      have he0 : (@unpackExponent Format.binary64 v.toBits.toBitVec).toNat ≠ 0 :=
        fun h => hzero (BitVec.eq_of_toNat_eq h)
      have he1 : (@unpackExponent Format.binary64 v.toBits.toBitVec).toNat ≠ 2047 :=
        fun h => hinf (BitVec.eq_of_toNat_eq h)
      change _ < 2 ^ 52 at hb
      change _ < 2 ^ 11 at he
      simp only [Packable, Canonical, toNat_one_append, Format.exponentBias]
      omega

/-! ## Rounding -/

theorem shiftRight_mantissa (em : ExtendedMantissa) (k : Nat) :
    (em >>> k).mantissa = em.mantissa / 2 ^ k := by
  induction k generalizing em with
  | zero => simp [HShiftRight.hShiftRight, Nat.repeat]
  | succ k ih =>
    change (ExtendedMantissa.shiftRightOne (em >>> k)).mantissa = _
    rw [ExtendedMantissa.shiftRightOne, ih, Nat.div_div_eq_div_mul, Nat.pow_succ]

theorem roundedMantissa_bounds (em : ExtendedMantissa) :
    em.mantissa ≤ em.roundedMantissa ∧ em.roundedMantissa ≤ em.mantissa + 1 := by
  obtain ⟨m, r, s⟩ := em
  cases r <;> cases s <;>
    simp [ExtendedMantissa.roundedMantissa, ExtendedMantissa.accuracy, Accuracy.roundToNearestEven]
  omega

/-- The binary64 target exponent: 53 bits below the leading one, but not below `-1074`. -/
theorem targetExponent_eq (m : Nat) (e : Int) :
    Format.binary64.targetExponent (totalExponent m e) = max (m.log2 + e - 52) (-1074) := by
  simp only [Format.targetExponent, totalExponent, Format.mantissaBits, Format.minExponent]
  omega

section Formats

variable {spec : Format}

theorem shiftToTarget_mantissa (m : Nat) (e : Int) (a : Accuracy) :
    (shiftToTargetExponent spec m e a).1.mantissa =
      m / 2 ^ (spec.targetExponent (totalExponent m e) - e).toNat := by
  simp only [shiftToTargetExponent, shiftToExponent, shiftRight_mantissa]
  cases a with
  | exact => rfl
  | inexact o => cases o <;> rfl

theorem shiftToTarget_exponent (m : Nat) (e : Int) (a : Accuracy) :
    (shiftToTargetExponent spec m e a).2 =
      e + (spec.targetExponent (totalExponent m e) - e).toNat := rfl

theorem shiftToTarget_of_lt {r : Nat} {t : Int} (hr : r < 2 ^ spec.mantissaBits)
    (ht : spec.minExponent ≤ t) :
    shiftToTargetExponent spec r t .exact = (⟨r, false, false⟩, t) := by
  have hl : r.log2 < spec.mantissaBits := by
    rcases Nat.eq_zero_or_pos r with rfl | hp
    · simp [Format.mantissaBits]
    · exact (Nat.log2_lt hp.ne').mpr hr
  have h0 : (spec.targetExponent (totalExponent r t) - t).toNat = 0 := by
    simp only [Format.targetExponent, totalExponent]
    omega
  simp only [shiftToTargetExponent, shiftToExponent, h0]
  simp [HShiftRight.hShiftRight, Nat.repeat, ExtendedMantissa.ofMantissaAndAccuracy]

theorem shiftToTarget_carry {t : Int} (ht : spec.minExponent ≤ t) :
    shiftToTargetExponent spec (2 ^ spec.mantissaBits) t .exact =
      (⟨2 ^ (spec.mantissaBits - 1), false, false⟩, t + 1) := by
  have hmb : 1 ≤ spec.mantissaBits := by simp [Format.mantissaBits]
  have h1 : (spec.targetExponent (totalExponent (2 ^ spec.mantissaBits) t) - t).toNat = 1 := by
    simp only [Format.targetExponent, totalExponent, Nat.log2_two_pow]
    omega
  simp only [shiftToTargetExponent, shiftToExponent, h1]
  have hp : 2 ^ spec.mantissaBits = 2 ^ (spec.mantissaBits - 1) * 2 := by
    rw [← Nat.pow_succ, Nat.succ_eq_add_one, Nat.sub_add_cancel hmb]
  simp [HShiftRight.hShiftRight, Nat.repeat, ExtendedMantissa.ofMantissaAndAccuracy,
    ExtendedMantissa.shiftRightOne, hp]

end Formats

theorem shiftToTargetExponent_mantissa (m : Nat) (e : Int) (a : Accuracy) :
    (shiftToTargetExponent Format.binary64 m e a).1.mantissa =
      m / 2 ^ (max ((m.log2 : Int) + e - 52) (-1074) - e).toNat := by
  rw [shiftToTarget_mantissa, targetExponent_eq]

theorem shiftToTargetExponent_exponent (m : Nat) (e : Int) (a : Accuracy) :
    (shiftToTargetExponent Format.binary64 m e a).2 =
      e + (max ((m.log2 : Int) + e - 52) (-1074) - e).toNat := by
  rw [shiftToTarget_exponent, targetExponent_eq]

theorem shiftToTargetExponent_carry {t : Int} (ht : -1074 ≤ t) :
    shiftToTargetExponent Format.binary64 (2 ^ 53) t .exact = (⟨2 ^ 52, false, false⟩, t + 1) :=
  @shiftToTarget_carry Format.binary64 t ht

theorem floor_error (m r k : Nat) (e : Int) (hr : m / 2 ^ k ≤ r ∧ r ≤ m / 2 ^ k + 1) :
    |(r : ℚ) * 2 ^ (e + k) - m * 2 ^ e| ≤ 2 ^ (e + k) := by
  have hd : 0 < 2 ^ k := Nat.two_pow_pos k
  have h₁ : r * 2 ^ k ≤ m + 2 ^ k := by
    have := Nat.div_mul_le_self m (2 ^ k)
    nlinarith [hr.2]
  have h₂ : m ≤ r * 2 ^ k + 2 ^ k := by
    have := Nat.lt_div_mul_add hd (a := m)
    nlinarith [hr.1]
  have h₁' : (r : ℚ) * 2 ^ k ≤ m + 2 ^ k := by exact_mod_cast h₁
  have h₂' : (m : ℚ) ≤ r * 2 ^ k + 2 ^ k := by exact_mod_cast h₂
  have hp : (0 : ℚ) < 2 ^ e := zpow_pos (by norm_num) e
  rw [zpow_add₀ (by norm_num), zpow_natCast, abs_le]
  constructor <;> nlinarith

/-- Binary64 rounding of `m · 2^e`, when the mantissa has at least 53 bits or the exponent is at
the bottom: the result unpacks to itself and is off by at most `2^(N-52)` when `m · 2^e ≤ 2^N`. -/
theorem roundWithAccuracy_error (s : Sign) (m : Nat) (e N : Int) (a : Accuracy) (hm : 0 < m)
    (hc : 52 ≤ m.log2 ∨ e ≤ -1074) (hN : -1022 ≤ N) (hN' : N ≤ 1022)
    (hv : (m : ℚ) * 2 ^ e ≤ 2 ^ N) :
    Packable (roundWithAccuracy Format.binary64 s m e a) ∧
      ∃ q, unpackedValue (roundWithAccuracy Format.binary64 s m e a) = some q ∧
        |q - (s.apply m : ℚ) * 2 ^ e| ≤ 2 ^ (N - 52) := by
  set t := max ((m.log2 : Int) + e - 52) (-1074) with ht
  set k := (t - e).toNat with hk
  have hek : e + k = t := by omega
  -- the target exponent lies below `N - 52`, because `2^log2 m ≤ m`
  have htN : t ≤ N - 52 := by
    have hl : (2 : ℚ) ^ (m.log2 : Int) ≤ m := by
      rw [zpow_natCast]; exact_mod_cast Nat.log2_self_le hm.ne'
    have h := le_trans (mul_le_mul_of_nonneg_right hl (zpow_pos (by norm_num : (0 : ℚ) < 2) e).le) hv
    rw [← zpow_add₀ (by norm_num)] at h
    have := (zpow_le_zpow_iff_right₀ (by norm_num : (1 : ℚ) < 2)).mp h
    omega
  have hfm := shiftToTargetExponent_mantissa m e a
  have hfe := shiftToTargetExponent_exponent m e a
  rw [← ht, ← hk] at hfm hfe
  generalize hfirst : shiftToTargetExponent Format.binary64 m e a = first at hfm hfe
  obtain ⟨em, e₁⟩ := first
  simp only at hfm hfe
  have hb := roundedMantissa_bounds em
  rw [hfm] at hb
  have hfloor : m / 2 ^ k < 2 ^ 53 := by
    rw [Nat.div_lt_iff_lt_mul (Nat.two_pow_pos k), ← Nat.pow_add]
    exact lt_of_lt_of_le Nat.lt_log2_self (Nat.pow_le_pow_right (by decide) (by omega))
  have herr := floor_error m em.roundedMantissa k e hb
  rw [hek] at herr
  have hts : (2 : ℚ) ^ t ≤ 2 ^ (N - 52) := zpow_le_zpow_right₀ (by norm_num) htN
  have ht0 : -1074 ≤ t := le_max_right _ _
  -- below the top binade, a mantissa with 53 bits stays normal after the shift
  have hnorm : t ≠ -1074 → 2 ^ 52 ≤ m / 2 ^ k := by
    intro hne
    rw [Nat.le_div_iff_mul_le (Nat.two_pow_pos k), ← Nat.pow_add]
    exact le_trans (Nat.pow_le_pow_right (by decide) (by omega)) (Nat.log2_self_le hm.ne')
  have hval : ∀ (r : Nat) (t' : Int), (r : ℚ) * 2 ^ t' = em.roundedMantissa * 2 ^ t →
      |((s.apply r : Int) : ℚ) * 2 ^ t' - (s.apply m : ℚ) * 2 ^ e| ≤ 2 ^ (N - 52) := by
    intro r t' h
    refine le_trans ?_ (le_trans herr hts)
    cases s <;> simp only [Sign.apply, Int.cast_neg, Int.cast_natCast, neg_mul, neg_sub_neg, h]
    · rw [abs_sub_comm]
    · rfl
  rw [roundWithAccuracy, hfirst]
  dsimp only
  rw [hfe, hek]
  by_cases h53 : em.roundedMantissa < 2 ^ 53
  · rw [@shiftToTarget_of_lt Format.binary64 _ _ h53 ht0]
    dsimp only
    split
    · rename_i h0
      refine ⟨trivial, 0, rfl, ?_⟩
      have h := hval 0 t (by simp [h0])
      have hs : ((s.apply ((0 : Nat) : Int) : Int) : ℚ) = 0 := by cases s <;> simp [Sign.apply]
      rwa [hs, zero_mul] at h
    · refine ⟨⟨h53, ht0, by omega, ?_⟩, _, rfl, hval _ _ rfl⟩
      by_cases hb' : t = -1074
      · exact .inr hb'
      · exact .inl (le_trans (hnorm hb') hb.1)
  · have hr : em.roundedMantissa = 2 ^ 53 := by omega
    rw [hr, shiftToTargetExponent_carry ht0]
    dsimp only
    rw [dif_neg (by decide)]
    refine ⟨⟨by decide, by omega, by omega, .inl le_rfl⟩, _, rfl, hval _ _ ?_⟩
    rw [hr, zpow_add₀ (by norm_num)]
    push_cast
    ring

theorem log2_shiftLeft {m : Nat} (hm : m ≠ 0) (j : Nat) : (m <<< j).log2 = m.log2 + j := by
  rw [Nat.log2_eq_iff (by rw [Nat.shiftLeft_eq]; positivity), Nat.shiftLeft_eq]
  have h₁ := Nat.log2_self_le hm
  have h₂ := Nat.lt_log2_self (n := m)
  constructor
  · rw [Nat.pow_add]; exact Nat.mul_le_mul_right _ h₁
  · rw [show m.log2 + j + 1 = m.log2 + 1 + j by omega, Nat.pow_add]
    exact Nat.mul_lt_mul_of_pos_right h₂ (Nat.two_pow_pos j)

/-- `round` first moves a mantissa up to the target exponent, so the rounding that follows
meets the hypothesis of `roundWithAccuracy_error`. -/
theorem round_error (s : Sign) (m : Nat) (e N : Int) (hm : 0 < m) (hN : -1022 ≤ N)
    (hN' : N ≤ 1022) (hv : (m : ℚ) * 2 ^ e ≤ 2 ^ N) :
    Packable (UnpackedFloat.round Format.binary64 s m e) ∧
      ∃ q, unpackedValue (UnpackedFloat.round Format.binary64 s m e) = some q ∧
        |q - (s.apply m : ℚ) * 2 ^ e| ≤ 2 ^ (N - 52) := by
  set j := (e - Format.binary64.targetExponent (totalExponent m e)).toNat with hj
  have ht := targetExponent_eq m e
  have hlog := log2_shiftLeft hm.ne' j
  have hsame : ((m <<< j : Nat) : ℚ) * 2 ^ (e - j) = m * 2 ^ e := by
    rw [Nat.shiftLeft_eq, Nat.cast_mul, Nat.cast_pow, Nat.cast_ofNat, zpow_sub₀ (by norm_num),
      zpow_natCast]
    field_simp
  have hpos : 0 < m <<< j := by rw [Nat.shiftLeft_eq]; positivity
  have hc : 52 ≤ (m <<< j).log2 ∨ e - j ≤ -1074 := by omega
  have h := roundWithAccuracy_error s (m <<< j) (e - j) N .exact hpos hc hN hN' (by rwa [hsame])
  have hs : ((s.apply ((m <<< j : Nat) : Int) : Int) : ℚ) * 2 ^ (e - j) =
      (s.apply m : ℚ) * 2 ^ e := by
    cases s <;> simp only [Sign.apply, Int.cast_neg, Int.cast_natCast, neg_mul, hsame]
  rw [hs] at h
  exact h

/-- `normalize` rounds a signed mantissa; zero gives the zero of the given sign. -/
theorem normalize_error (n : Int) (e N : Int) (zs : Sign) (hN : -1022 ≤ N) (hN' : N ≤ 1022)
    (hv : |(n : ℚ) * 2 ^ e| ≤ 2 ^ N) :
    Packable (normalize Format.binary64 n e zs) ∧
      ∃ q, unpackedValue (normalize Format.binary64 n e zs) = some q ∧
        |q - n * 2 ^ e| ≤ 2 ^ (N - 52) := by
  have hp : (0 : ℚ) < 2 ^ e := zpow_pos (by norm_num) e
  rcases lt_trichotomy n 0 with hn | rfl | hn
  · have hc : ((-n).toNat : ℚ) = -(n : ℚ) := by
      rw [← Int.cast_natCast, Int.toNat_of_nonneg (by omega), Int.cast_neg]
    have hv' : ((-n).toNat : ℚ) * 2 ^ e ≤ 2 ^ N := by
      rw [hc]
      have hneg : (n : ℚ) < 0 := by exact_mod_cast hn
      rwa [abs_mul, abs_of_neg hneg, abs_of_pos hp] at hv
    obtain ⟨hpk, q, hq, he⟩ := round_error .negative (-n).toNat e N (by omega) hN hN' hv'
    unfold UnpackedFloat.normalize
    rw [Int.compare_eq_lt.mpr hn]
    refine ⟨hpk, q, hq, ?_⟩
    simpa only [Sign.apply, Int.toNat_of_nonneg (by omega : 0 ≤ -n), neg_neg] using he
  · have h0 : UnpackedFloat.normalize Format.binary64 0 e zs = .zero zs := rfl
    rw [h0]
    exact ⟨trivial, 0, rfl, by simp; positivity⟩
  · have hv' : (n.toNat : ℚ) * 2 ^ e ≤ 2 ^ N := by
      rw [← Int.cast_natCast, Int.toNat_of_nonneg hn.le]
      have hpos : (0 : ℚ) < n := by exact_mod_cast hn
      rwa [abs_mul, abs_of_pos hpos, abs_of_pos hp] at hv
    obtain ⟨hpk, q, hq, he⟩ := round_error .positive n.toNat e N (by omega) hN hN' hv'
    unfold UnpackedFloat.normalize
    rw [Int.compare_eq_gt.mpr hn]
    refine ⟨hpk, q, hq, ?_⟩
    simpa only [Sign.apply, Int.toNat_of_nonneg hn.le] using he

/-! ## Operations on unpacked floats -/

theorem decreaseExponent_value (m : Nat) {e t : Int} (h : t ≤ e) :
    ((decreaseExponent m e t).1 : ℚ) * 2 ^ t = m * 2 ^ e := by
  simp only [decreaseExponent, Nat.shiftLeft_eq, Nat.cast_mul, Nat.cast_pow, Nat.cast_ofNat]
  rw [← zpow_natCast, mul_assoc, ← zpow_add₀ (by norm_num), show ((e - t).toNat : Int) + t = e by omega]

theorem apply_cast (s : Sign) (n : Int) : ((s.apply n : Int) : ℚ) = (s.apply 1 : Int) * n := by
  cases s <;> simp [Sign.apply]

theorem apply_neg (s : Sign) (n : Int) : (-s).apply n = -(s.apply n) := by
  cases s
  · exact (Int.neg_neg n).symm
  · rfl

theorem mul_apply (s₁ s₂ : Sign) (n₁ n₂ : Int) :
    (s₁ * s₂).apply (n₁ * n₂) = s₁.apply n₁ * s₂.apply n₂ := by
  cases s₁ <;> cases s₂
  · exact (Int.neg_mul_neg n₁ n₂).symm
  · exact (Int.neg_mul n₁ n₂).symm
  · exact (Int.mul_neg n₁ n₂).symm
  · rfl

theorem abs_apply_one (s : Sign) : |((s.apply 1 : Int) : ℚ)| = 1 := by
  cases s <;> simp [Sign.apply]

theorem finite_value {s : Sign} {m : Nat} {e : Int} {hm : 0 < m} {x : ℚ}
    (h : unpackedValue (.finite s m e hm) = some x) : x = (s.apply m : ℚ) * 2 ^ e := by
  simp only [unpackedValue, Option.some.injEq] at h
  exact h.symm

theorem unpackedValue_eq_some {u : UnpackedFloat} {x : ℚ} (h : unpackedValue u = some x) :
    (∃ s, u = .zero s ∧ x = 0) ∨
      ∃ s m e hm, u = .finite s m e hm ∧ x = (s.apply m : ℚ) * 2 ^ e := by
  cases u with
  | infinity => simp [unpackedValue] at h
  | notANumber => simp [unpackedValue] at h
  | zero s => exact .inl ⟨s, rfl, (Option.some.inj h).symm⟩
  | finite s m e hm => exact .inr ⟨s, m, e, hm, rfl, finite_value h⟩

/-- The exact sum of two finite floats, aligned at the smaller exponent. -/
theorem aligned_sum (s₁ s₂ : Sign) (m₁ m₂ : Nat) (e₁ e₂ : Int) :
    (((s₁.apply (decreaseExponent m₁ e₁ (min e₁ e₂)).1 +
        s₂.apply (decreaseExponent m₂ e₂ (min e₁ e₂)).1 : Int) : ℚ)) * 2 ^ (min e₁ e₂) =
      (s₁.apply m₁ : ℚ) * 2 ^ e₁ + (s₂.apply m₂ : ℚ) * 2 ^ e₂ := by
  rw [Int.cast_add, add_mul, apply_cast, apply_cast s₂, mul_assoc, mul_assoc, Int.cast_natCast,
    Int.cast_natCast, decreaseExponent_value m₁ (min_le_left _ _),
    decreaseExponent_value m₂ (min_le_right _ _), apply_cast s₁ m₁, apply_cast s₂ m₂]
  push_cast; ring

theorem model_sub_eq_add_neg (spec : Format) (a b : UnpackedFloat) :
    UnpackedFloat.sub spec a b = UnpackedFloat.add spec a b.neg := by
  cases a <;> cases b <;>
    simp [UnpackedFloat.sub, UnpackedFloat.add, UnpackedFloat.neg, apply_neg, sub_eq_add_neg]

theorem packable_neg {u : UnpackedFloat} (h : Packable u) : Packable u.neg := by
  cases u <;> exact h

theorem unpackedValue_neg {u : UnpackedFloat} {x : ℚ} (h : unpackedValue u = some x) :
    unpackedValue u.neg = some (-x) := by
  rcases unpackedValue_eq_some h with ⟨s, rfl, rfl⟩ | ⟨s, m, e, hm, rfl, rfl⟩
  · simp [UnpackedFloat.neg, unpackedValue]
  · simp [UnpackedFloat.neg, unpackedValue, apply_neg]

section Operations

variable {a b : UnpackedFloat} {x y : ℚ} {N : Int}

/-- Binary64 addition of two finite floats is off from the exact sum by at most `2^(N-52)`
when the sum has magnitude at most `2^N`. -/
theorem add_error (ha : Packable a) (hb : Packable b) (hx : unpackedValue a = some x)
    (hy : unpackedValue b = some y) (hN : -1022 ≤ N) (hN' : N ≤ 1022) (hv : |x + y| ≤ 2 ^ N) :
    Packable (UnpackedFloat.add Format.binary64 a b) ∧
      ∃ q, unpackedValue (UnpackedFloat.add Format.binary64 a b) = some q ∧
        |q - (x + y)| ≤ 2 ^ (N - 52) := by
  have hpos : (0 : ℚ) ≤ 2 ^ (N - 52) := (zpow_pos (by norm_num) _).le
  rcases unpackedValue_eq_some hx with ⟨s₁, rfl, rfl⟩ | ⟨s₁, m₁, e₁, hm₁, rfl, rfl⟩
  · rcases unpackedValue_eq_some hy with ⟨s₂, rfl, rfl⟩ | ⟨s₂, m₂, e₂, hm₂, rfl, rfl⟩
    · simp only [UnpackedFloat.add]
      split <;> exact ⟨trivial, 0, rfl, by simpa using hpos⟩
    · exact ⟨hb, _, hy, by simpa using hpos⟩
  · rcases unpackedValue_eq_some hy with ⟨s₂, rfl, rfl⟩ | ⟨s₂, m₂, e₂, hm₂, rfl, rfl⟩
    · exact ⟨ha, _, hx, by simpa using hpos⟩
    · rw [← aligned_sum] at hv ⊢
      exact normalize_error _ _ N .positive hN hN' hv

theorem sub_error (ha : Packable a) (hb : Packable b) (hx : unpackedValue a = some x)
    (hy : unpackedValue b = some y) (hN : -1022 ≤ N) (hN' : N ≤ 1022) (hv : |x - y| ≤ 2 ^ N) :
    Packable (UnpackedFloat.sub Format.binary64 a b) ∧
      ∃ q, unpackedValue (UnpackedFloat.sub Format.binary64 a b) = some q ∧
        |q - (x - y)| ≤ 2 ^ (N - 52) := by
  rw [model_sub_eq_add_neg, sub_eq_add_neg]
  rw [sub_eq_add_neg] at hv
  exact add_error ha (packable_neg hb) hx (unpackedValue_neg hy) hN hN' hv

theorem mul_error (ha : Packable a) (hb : Packable b) (hx : unpackedValue a = some x)
    (hy : unpackedValue b = some y) (hN : -1022 ≤ N) (hN' : N ≤ 1022) (hv : |x * y| ≤ 2 ^ N) :
    Packable (UnpackedFloat.mul Format.binary64 a b) ∧
      ∃ q, unpackedValue (UnpackedFloat.mul Format.binary64 a b) = some q ∧
        |q - x * y| ≤ 2 ^ (N - 52) := by
  have hpos : (0 : ℚ) ≤ 2 ^ (N - 52) := (zpow_pos (by norm_num) _).le
  rcases unpackedValue_eq_some hx with ⟨s₁, rfl, rfl⟩ | ⟨s₁, m₁, e₁, hm₁, rfl, rfl⟩
  · -- a zero factor gives a zero
    rcases unpackedValue_eq_some hy with ⟨s₂, rfl, rfl⟩ | ⟨s₂, m₂, e₂, hm₂, rfl, rfl⟩ <;>
      exact ⟨trivial, 0, rfl, by simpa using hpos⟩
  · rcases unpackedValue_eq_some hy with ⟨s₂, rfl, rfl⟩ | ⟨s₂, m₂, e₂, hm₂, rfl, rfl⟩
    · exact ⟨trivial, 0, rfl, by simpa using hpos⟩
    · obtain ⟨-, hl₁, -, hn₁⟩ := ha
      obtain ⟨-, hl₂, -, hn₂⟩ := hb
      -- a product with a normal factor has 53 bits; two subnormals multiply below the bottom
      have hc : 52 ≤ (m₁ * m₂).log2 ∨ e₁ + e₂ ≤ -1074 := by
        rcases hn₁ with h₁ | h₁
        · exact .inl ((Nat.le_log2 (by positivity)).mpr (le_trans h₁ (Nat.le_mul_of_pos_right _ hm₂)))
        · rcases hn₂ with h₂ | h₂
          · exact .inl ((Nat.le_log2 (by positivity)).mpr (le_trans h₂ (Nat.le_mul_of_pos_left _ hm₁)))
          · exact .inr (by omega)
      have hxy : (s₁.apply m₁ : ℚ) * 2 ^ e₁ * ((s₂.apply m₂ : ℚ) * 2 ^ e₂) =
          (((s₁ * s₂).apply (m₁ * m₂ : Nat) : Int) : ℚ) * 2 ^ (e₁ + e₂) := by
        rw [Nat.cast_mul, mul_apply, Int.cast_mul, zpow_add₀ (by norm_num)]
        ring
      have hv' : ((m₁ * m₂ : Nat) : ℚ) * 2 ^ (e₁ + e₂) ≤ 2 ^ N := by
        rw [hxy, apply_cast, Int.cast_natCast, mul_assoc, abs_mul] at hv
        rwa [abs_apply_one, one_mul, abs_of_nonneg (by positivity)] at hv
      rw [hxy]
      exact roundWithAccuracy_error _ _ _ N .exact (Nat.mul_pos hm₁ hm₂) hc hN hN' hv'

end Operations

/-! ## Doubles -/

/-- The number a double stands for, when it is finite. -/
def value (x : Float) : Option ℚ := unpackedValue x.toModel.unpack

/-- The double is NaN. -/
def IsNaN (x : Float) : Prop := x.toModel.unpack = .notANumber

section Doubles

variable {x y : Float} {a b : ℚ} {N : Int}

theorem value_add (hx : value x = some a) (hy : value y = some b) (hN : -1022 ≤ N)
    (hN' : N ≤ 1022) (hv : |a + b| ≤ 2 ^ N) :
    ∃ q, value (x + y) = some q ∧ |q - (a + b)| ≤ 2 ^ (N - 52) := by
  obtain ⟨hp, h⟩ := add_error (packable_unpack x.toModel) (packable_unpack y.toModel) hx hy hN hN' hv
  change ∃ q, unpackedValue (Float.Model.pack _).unpack = some q ∧ _
  rwa [unpack_pack hp]

theorem value_sub (hx : value x = some a) (hy : value y = some b) (hN : -1022 ≤ N)
    (hN' : N ≤ 1022) (hv : |a - b| ≤ 2 ^ N) :
    ∃ q, value (x - y) = some q ∧ |q - (a - b)| ≤ 2 ^ (N - 52) := by
  obtain ⟨hp, h⟩ := sub_error (packable_unpack x.toModel) (packable_unpack y.toModel) hx hy hN hN' hv
  change ∃ q, unpackedValue (Float.Model.pack _).unpack = some q ∧ _
  rwa [unpack_pack hp]

theorem value_mul (hx : value x = some a) (hy : value y = some b) (hN : -1022 ≤ N)
    (hN' : N ≤ 1022) (hv : |a * b| ≤ 2 ^ N) :
    ∃ q, value (x * y) = some q ∧ |q - a * b| ≤ 2 ^ (N - 52) := by
  obtain ⟨hp, h⟩ := mul_error (packable_unpack x.toModel) (packable_unpack y.toModel) hx hy hN hN' hv
  change ∃ q, unpackedValue (Float.Model.pack _).unpack = some q ∧ _
  rwa [unpack_pack hp]

theorem value_neg (hx : value x = some a) : value (-x) = some (-a) := by
  change unpackedValue (Float.Model.pack x.toModel.unpack.neg).unpack = _
  rw [unpack_pack (packable_neg (packable_unpack x.toModel))]
  exact unpackedValue_neg hx

theorem isNaN_add_left (h : IsNaN x) (y : Float) : IsNaN (x + y) := by
  change (Float.Model.pack (UnpackedFloat.add _ x.toModel.unpack _)).unpack = _
  rw [h, UnpackedFloat.add, unpack_pack_nan]

theorem isNaN_add_right (x : Float) (h : IsNaN y) : IsNaN (x + y) := by
  change (Float.Model.pack (UnpackedFloat.add _ _ y.toModel.unpack)).unpack = _
  rw [h]; cases x.toModel.unpack <;> exact unpack_pack_nan

theorem isNaN_sub_left (h : IsNaN x) (y : Float) : IsNaN (x - y) := by
  change (Float.Model.pack (UnpackedFloat.sub _ x.toModel.unpack _)).unpack = _
  rw [h, UnpackedFloat.sub, unpack_pack_nan]

theorem isNaN_sub_right (x : Float) (h : IsNaN y) : IsNaN (x - y) := by
  change (Float.Model.pack (UnpackedFloat.sub _ _ y.toModel.unpack)).unpack = _
  rw [h]; cases x.toModel.unpack <;> exact unpack_pack_nan

theorem isNaN_mul_left (h : IsNaN x) (y : Float) : IsNaN (x * y) := by
  change (Float.Model.pack (UnpackedFloat.mul _ x.toModel.unpack _)).unpack = _
  rw [h, UnpackedFloat.mul, unpack_pack_nan]

theorem isNaN_mul_right (x : Float) (h : IsNaN y) : IsNaN (x * y) := by
  change (Float.Model.pack (UnpackedFloat.mul _ _ y.toModel.unpack)).unpack = _
  rw [h]; cases x.toModel.unpack <;> exact unpack_pack_nan

end Doubles

/-! ## Truncation -/

theorem roundToInt_eq (s : Sign) (m : Nat) (e : Int) :
    roundToInt s m e = s.apply ((m * 2 ^ e.toNat) / 2 ^ (-e).toNat : Nat) := by
  have hk : (0 - (e - (e.toNat : Int))).toNat = (-e).toNat := by omega
  simp only [roundToInt, decreaseExponent, shiftToExponent, Nat.shiftLeft_eq, shiftRight_mantissa,
    ExtendedMantissa.ofMantissaAndAccuracy, Int.sub_zero, hk]

theorem div_floor (M D : Nat) (hD : 0 < D) :
    ((M / D : Nat) : ℚ) ≤ (M : ℚ) / D ∧ (M : ℚ) / D < (M / D : Nat) + 1 := by
  have hD' : (0 : ℚ) < D := by exact_mod_cast hD
  constructor
  · rw [le_div_iff₀ hD']; exact_mod_cast Nat.div_mul_le_self M D
  · rw [div_lt_iff₀ hD']
    have := Nat.lt_div_mul_add hD (a := M)
    have h : (M : ℚ) < (M / D : Nat) * D + D := by exact_mod_cast this
    linarith

/-- Truncation of a finite float: toward zero, so no larger in magnitude, and less than one away. -/
theorem roundToInt_spec (s : Sign) (m : Nat) (e : Int) :
    |(roundToInt s m e : ℚ)| ≤ |(s.apply m : ℚ) * 2 ^ e| ∧
      |(s.apply m : ℚ) * 2 ^ e - roundToInt s m e| < 1 := by
  have hv : (m : ℚ) * 2 ^ e = ((m * 2 ^ e.toNat : Nat) : ℚ) / (2 ^ (-e).toNat : Nat) := by
    push_cast
    rw [← zpow_natCast, ← zpow_natCast, mul_div_assoc, ← zpow_sub₀ (by norm_num)]
    congr 2; omega
  obtain ⟨h₁, h₂⟩ := div_floor (m * 2 ^ e.toNat) (2 ^ (-e).toNat) (Nat.two_pow_pos _)
  rw [← hv] at h₁ h₂
  have hnn : (0 : ℚ) ≤ (m : ℚ) * 2 ^ e := by positivity
  have hq : (0 : ℚ) ≤ ((m * 2 ^ e.toNat / 2 ^ (-e).toNat : Nat) : ℚ) := by positivity
  have hT : ((roundToInt s m e : Int) : ℚ) =
      (s.apply 1 : ℚ) * ((m * 2 ^ e.toNat / 2 ^ (-e).toNat : Nat) : ℚ) := by
    rw [roundToInt_eq, apply_cast, Int.cast_natCast]
  have hV : ((s.apply m : Int) : ℚ) * 2 ^ e = (s.apply 1 : ℚ) * ((m : ℚ) * 2 ^ e) := by
    rw [apply_cast, Int.cast_natCast, mul_assoc]
  rw [hT, hV, ← mul_sub]
  generalize ((m * 2 ^ e.toNat / 2 ^ (-e).toNat : Nat) : ℚ) = T at *
  generalize (m : ℚ) * 2 ^ e = v at *
  rw [abs_mul, abs_mul, abs_mul, abs_apply_one, one_mul, one_mul, one_mul, abs_of_nonneg hq,
    abs_of_nonneg hnn, abs_of_nonneg (by linarith)]
  constructor <;> linarith

section Truncation

variable {x : Float} {a : ℚ}

theorem truncInt64_nan (h : IsNaN x) : truncInt64 x = 0 := by
  unfold truncInt64 truncClamp
  rw [h]
  rfl

/-- Truncating a finite double: the clamp of an integer toward zero from it and within one. -/
theorem truncInt64_finite (hx : value x = some a) :
    ∃ T : ℤ, |(T : ℚ)| ≤ |a| ∧ |a - T| < 1 ∧
      truncInt64 x = max (-9223372036854775808) (min 9223372036854775807 T) := by
  unfold truncInt64 truncClamp
  rcases unpackedValue_eq_some hx with ⟨s, h, rfl⟩ | ⟨s, m, e, hm, h, rfl⟩
  · rw [h]
    exact ⟨0, by simp, by simp, rfl⟩
  · rw [h]
    obtain ⟨h₁, h₂⟩ := roundToInt_spec s m e
    exact ⟨_, h₁, h₂, rfl⟩

/-- A finite double in `[-2^63, 2^63)` truncates toward zero without saturating. -/
theorem truncInt64_of_range (hx : value x = some a) (h₁ : -2 ^ 63 ≤ a)
    (h₂ : a < 2 ^ 63) : |(truncInt64 x : ℚ)| ≤ |a| ∧ |a - truncInt64 x| < 1 := by
  obtain ⟨T, hT, hd, heq⟩ := truncInt64_finite hx
  have hlo : (-2 ^ 63 : ℚ) ≤ T := by
    have := neg_abs_le (T : ℚ)
    have := abs_le.mp (hT.trans (abs_le.mpr ⟨by linarith, by linarith⟩ : |a| ≤ 2 ^ 63))
    linarith
  have hhi : (T : ℚ) < 2 ^ 63 := by
    rcases le_or_gt 0 a with h0 | h0
    · have := le_abs_self (T : ℚ)
      rw [abs_of_nonneg h0] at hT
      linarith
    · have := (abs_lt.mp hd).1
      linarith
  have hlo' : -9223372036854775808 ≤ T := by exact_mod_cast hlo
  have hhi' : T < 9223372036854775808 := by exact_mod_cast hhi
  rw [heq, min_eq_right (by omega), max_eq_right hlo']
  exact ⟨hT, hd⟩

theorem truncInt64_of_ge (hx : value x = some a) (ha : 2 ^ 63 ≤ a) :
    truncInt64 x = 9223372036854775807 := by
  obtain ⟨T, -, hd, heq⟩ := truncInt64_finite hx
  have hT : (9223372036854775807 : ℚ) < T := by
    have := (abs_lt.mp hd).2
    linarith
  have hT' : 9223372036854775807 < T := by exact_mod_cast hT
  rw [heq, min_eq_left hT'.le]
  rfl

theorem truncInt64_inf : truncInt64 inf = 9223372036854775807 := rfl

/-- A finite double of magnitude at most `2^62` truncates toward zero, without saturating. -/
theorem truncInt64_spec (hx : value x = some a) (ha : |a| ≤ 2 ^ 62) :
    |(truncInt64 x : ℚ)| ≤ |a| ∧ |a - truncInt64 x| < 1 := by
  rw [abs_le] at ha
  exact truncInt64_of_range hx (by linarith) (by linarith)

end Truncation

/-! ## Bounded doubles -/

/-- NaN, or a finite double of magnitude at most `B`. The operations on such doubles never give
an infinity, and NaN stays NaN. -/
def Within (B : ℚ) (x : Float) : Prop := IsNaN x ∨ ∃ q, value x = some q ∧ |q| ≤ B

namespace Within

variable {x y : Float} {A B : ℚ} {N : Int}

theorem mono (h : Within A x) (hAB : A ≤ B) : Within B x := by
  rcases h with h | ⟨q, hq, hA⟩
  · exact .inl h
  · exact .inr ⟨q, hq, le_trans hA hAB⟩

theorem of_value {q : ℚ} (h : value x = some q) (hq : |q| ≤ A) : Within A x := .inr ⟨q, h, hq⟩

theorem add (hx : Within A x) (hy : Within B y) (hN : -1022 ≤ N) (hN' : N ≤ 1022)
    (h : A + B ≤ 2 ^ N) : Within (A + B + 2 ^ (N - 52)) (x + y) := by
  rcases hx with hx | ⟨a, ha, hA⟩
  · exact .inl (isNaN_add_left hx y)
  rcases hy with hy | ⟨b, hb, hB⟩
  · exact .inl (isNaN_add_right x hy)
  have hab : |a + b| ≤ A + B := le_trans (abs_add_le a b) (add_le_add hA hB)
  obtain ⟨q, hq, he⟩ := value_add ha hb hN hN' (le_trans hab h)
  refine .inr ⟨q, hq, ?_⟩
  have := abs_sub_abs_le_abs_sub q (a + b)
  linarith

theorem sub (hx : Within A x) (hy : Within B y) (hN : -1022 ≤ N) (hN' : N ≤ 1022)
    (h : A + B ≤ 2 ^ N) : Within (A + B + 2 ^ (N - 52)) (x - y) := by
  rcases hx with hx | ⟨a, ha, hA⟩
  · exact .inl (isNaN_sub_left hx y)
  rcases hy with hy | ⟨b, hb, hB⟩
  · exact .inl (isNaN_sub_right x hy)
  have hab : |a - b| ≤ A + B := le_trans (abs_sub a b) (add_le_add hA hB)
  obtain ⟨q, hq, he⟩ := value_sub ha hb hN hN' (le_trans hab h)
  refine .inr ⟨q, hq, ?_⟩
  have := abs_sub_abs_le_abs_sub q (a - b)
  linarith

theorem mul (hx : Within A x) (hy : Within B y) (hN : -1022 ≤ N) (hN' : N ≤ 1022)
    (h : A * B ≤ 2 ^ N) : Within (A * B + 2 ^ (N - 52)) (x * y) := by
  rcases hx with hx | ⟨a, ha, hA⟩
  · exact .inl (isNaN_mul_left hx y)
  rcases hy with hy | ⟨b, hb, hB⟩
  · exact .inl (isNaN_mul_right x hy)
  have hab : |a * b| ≤ A * B := by
    rw [abs_mul]; exact mul_le_mul hA hB (abs_nonneg b) (le_trans (abs_nonneg a) hA)
  obtain ⟨q, hq, he⟩ := value_mul ha hb hN hN' (le_trans hab h)
  refine .inr ⟨q, hq, ?_⟩
  have := abs_sub_abs_le_abs_sub q (a * b)
  linarith

theorem ite (c : Bool) (hx : Within A x) (hy : Within A y) :
    Within A (if c then x else y) := by
  cases c <;> simpa

theorem neg (hx : Within A x) : Within A (-x) := by
  rcases hx with hx | ⟨a, ha, hA⟩
  · left
    change (Float.Model.pack x.toModel.unpack.neg).unpack = _
    rw [hx, UnpackedFloat.neg, unpack_pack_nan]
  · exact .inr ⟨-a, value_neg ha, by rwa [abs_neg]⟩

end Within

/-! ## Conversions and constants -/

theorem value_of_unpack {x : Float} {s : Sign} {m : Nat} {e : Int} {h : 0 < m}
    (hx : x.toModel.unpack = .finite s m e h) : value x = some ((s.apply m : ℚ) * 2 ^ e) := by
  simp [value, hx, unpackedValue]


theorem value_one : value (Float.ofBits 0x3FF0000000000000) = some 1 := by
  have h : (Float.ofBits 0x3FF0000000000000).toModel.unpack =
      .finite .positive (2 ^ 52) (-52) (by decide) := rfl
  simp only [value, h, unpackedValue, Sign.apply, Option.some.injEq]
  norm_num

theorem ofNat_eq {n : Nat} (hn : n < 2 ^ 53) :
    Float.ofNat n = Float.ofModel (Float.Model.pack (normalize Format.binary64 n 0 .positive)) *
      Float.ofBits 0x3FF0000000000000 := by
  have h : n.toUInt64.toNat = n := UInt64.toNat_ofNat_of_lt' (lt_trans hn (by decide))
  unfold Float.ofNat
  change Float.ofScientific n false 0 = _
  rw [Float.ofScientific, dif_pos ⟨hn, by decide⟩, if_neg (by decide)]
  change Float.ofModel (Float.Model.pack (normalize Format.binary64 n.toUInt64.toNat 0 .positive)) *
    Float.ofBits 0x3FF0000000000000 = _
  rw [h]

/-- A natural number below `2^53` converts to within `2^(N-50)` of itself when it is at most
`2^N`. -/
theorem value_ofNat {n : Nat} {N : Int} (hn : n < 2 ^ 53) (h0 : 0 ≤ N) (hN' : N ≤ 1021)
    (hN : (n : ℚ) ≤ 2 ^ N) : ∃ q, value (Float.ofNat n) = some q ∧ |q - n| ≤ 2 ^ (N - 50) := by
  obtain ⟨hp, q₁, hq₁, he₁⟩ := normalize_error n 0 N .positive (by omega) (by omega)
    (by simpa using hN)
  have hv₁ : value (Float.ofModel (Float.Model.pack (normalize Format.binary64 n 0 .positive))) =
      some q₁ := by
    change unpackedValue (Float.Model.pack _).unpack = _
    rw [unpack_pack hp, hq₁]
  simp only [zpow_zero, mul_one, Int.cast_natCast] at he₁
  have hp2 : (2 : ℚ) ^ (N - 52) ≤ 2 ^ N := zpow_le_zpow_right₀ (by norm_num) (by omega)
  have hb : |q₁ * 1| ≤ 2 ^ (N + 1) := by
    rw [mul_one, zpow_add₀ (by norm_num), zpow_one]
    have := abs_sub_abs_le_abs_sub q₁ n
    rw [abs_of_nonneg (by positivity : (0 : ℚ) ≤ n)] at this
    linarith
  obtain ⟨q, hq, he⟩ := value_mul hv₁ value_one (by omega) (by omega) hb
  refine ⟨q, by rw [ofNat_eq hn, hq], ?_⟩
  have h1 : (2 : ℚ) ^ (N + 1 - 52) = 2 * 2 ^ (N - 52) := by
    rw [show N + 1 - 52 = (N - 52) + 1 by omega, zpow_add₀ (by norm_num), zpow_one, mul_comm]
  have h2 : (2 : ℚ) ^ (N - 50) = 4 * 2 ^ (N - 52) := by
    rw [show N - 50 = (N - 52) + 2 by omega, zpow_add₀ (by norm_num)]; norm_num; ring
  rw [mul_one] at he
  have := abs_sub_le q q₁ n
  have : (0 : ℚ) < 2 ^ (N - 52) := zpow_pos (by norm_num) _
  linarith

theorem natAbs_lt_of_abs_le {n : Int} {k : Nat} (hk : k ≤ 52) (h : |(n : ℚ)| ≤ 2 ^ k) :
    n.natAbs < 2 ^ 53 := by
  have h' : |n| ≤ 2 ^ k := by exact_mod_cast h
  have hp : (2 : Int) ^ k ≤ 2 ^ 52 := pow_le_pow_right₀ (by norm_num) hk
  rw [abs_le] at h'
  omega

/-- An integer below `2^53` in magnitude converts to within `2^(N-50)` of itself when its
magnitude is at most `2^N`. -/
theorem value_ofInt {i : Int} {N : Int} (hi : i.natAbs < 2 ^ 53) (h0 : 0 ≤ N) (hN' : N ≤ 1021)
    (hN : |(i : ℚ)| ≤ 2 ^ N) : ∃ q, value (Float.ofInt i) = some q ∧ |q - i| ≤ 2 ^ (N - 50) := by
  cases i with
  | ofNat n =>
    have hn : (n : ℚ) ≤ 2 ^ N := by simpa using hN
    obtain ⟨q, hq, he⟩ := value_ofNat (n := n) (by simpa using hi) h0 hN' hn
    exact ⟨q, hq, by simpa using he⟩
  | negSucc n =>
    have hn : ((n + 1 : Nat) : ℚ) ≤ 2 ^ N := by
      rw [Int.cast_negSucc, abs_neg, abs_of_nonneg (by positivity)] at hN
      simpa using hN
    obtain ⟨q, hq, he⟩ := value_ofNat (n := n + 1) (by simpa using hi) h0 hN' hn
    refine ⟨-q, value_neg hq, ?_⟩
    rw [Int.cast_negSucc, neg_sub_neg, abs_sub_comm]
    exact he

theorem Within.ofInt {i : Int} {N : Int} (hi : i.natAbs < 2 ^ 53) (h0 : 0 ≤ N) (hN' : N ≤ 1021)
    (hN : |(i : ℚ)| ≤ 2 ^ N) : Within (2 ^ N + 2 ^ (N - 50)) (Float.ofInt i) := by
  obtain ⟨q, hq, he⟩ := value_ofInt hi h0 hN' hN
  refine .of_value hq ?_
  have := abs_sub_abs_le_abs_sub q i
  linarith

end PhaseVocoder.Ieee
