import PhaseVocoder.Proofs.Singles
import PhaseVocoder.Wave.Write

/-!
# Requantizing decoded 16-bit samples (io/wav.rs:155-169, 172-212)

The reader turns a stored 16-bit code `q` into the single `q / 2^15`; the writer scales a sample
by `2^15 - 1` and truncates it toward zero. This module follows one code through both on core's
float model: the quotient is exact, the product is rounded once to 24 bits, and the truncation
lands on `q - sign q` (`pcm16Code_decoded`).

* For every format: a fitting float survives packing (`unpack_pack_of_fits`), and rounding
  `m · 2^e` lands on the grid of its target exponent, at or above every grid point below it and
  at most one step above it (`roundWithAccuracy_grid`).
* For singles: small integers convert exactly (`unpack_single_ofInt`), division by `2^15` only
  moves the exponent (`unpack_div_32768`), and a rounded value that stays between a grid point
  `a - 1` and `a` truncates to `a - 1` (`toInt_round_between`).
-/

namespace PhaseVocoder.Ieee

open Float.Model Float.Model.UnpackedFloat

section Formats

variable {spec : Format}

/-- A fitting finite float whose biased exponent stays below the infinities survives packing. -/
theorem unpack_pack_of_fits {s : Sign} {m : Nat} {e : Int} (hm : 0 < m) (hf : Fits spec m e)
    (hhi : (e + spec.exponentBias + spec.mantissaBitsWithoutImplicit).toNat + 1 <
      2 ^ spec.exponentBits) :
    UnpackedFloat.unpack spec (UnpackedFloat.pack spec (.finite s m e hm)) = .finite s m e hm :=
  unpack_pack_of_fields hm hf.1 hf.2.1 hf.2.2 hhi

/-! ## Rounding -/

/-- Rounding `m · 2^e` to the target exponent `t` keeps the grid multiple `r · 2^t` just
below or just above it: `r` is the floor of `m · 2^(e - t)` or one more. The result is that
multiple, as a fitting finite float at `t` (or at `t + 1` after a carry), or a zero when
`r = 0`. -/
theorem roundWithAccuracy_floor (s : Sign) {m : Nat} {e : Int} (acc : Accuracy) (hm : 0 < m)
    (ht : e ≤ spec.targetExponent (totalExponent m e)) :
    ∃ r, m / 2 ^ (spec.targetExponent (totalExponent m e) - e).toNat ≤ r ∧
      r ≤ m / 2 ^ (spec.targetExponent (totalExponent m e) - e).toNat + 1 ∧
      ((r = 0 ∧ roundWithAccuracy spec s m e acc = .zero s) ∨
        ∃ m' e' hm', roundWithAccuracy spec s m e acc = .finite s m' e' hm' ∧ Fits spec m' e' ∧
          e' ≤ spec.targetExponent (totalExponent m e) + 1 ∧
          (m' : ℚ) * 2 ^ e' = r * 2 ^ spec.targetExponent (totalExponent m e)) := by
  set t := spec.targetExponent (totalExponent m e) with ht_def
  set k := (t - e).toNat with hk
  have hek : e + k = t := by omega
  have hmb : 1 ≤ spec.mantissaBits := by simp [Format.mantissaBits]
  have htmin : spec.minExponent ≤ t := le_max_right _ _
  have htot : t = max ((m.log2 : Int) + 1 + e - spec.mantissaBits) spec.minExponent := rfl
  have hfloor : m / 2 ^ k < 2 ^ spec.mantissaBits := by
    rw [Nat.div_lt_iff_lt_mul (Nat.two_pow_pos k), ← Nat.pow_add]
    exact lt_of_lt_of_le Nat.lt_log2_self (Nat.pow_le_pow_right (by decide) (by omega))
  have hnorm : t ≠ spec.minExponent → 2 ^ (spec.mantissaBits - 1) ≤ m / 2 ^ k := by
    intro hne
    rw [Nat.le_div_iff_mul_le (Nat.two_pow_pos k), ← Nat.pow_add]
    exact le_trans (Nat.pow_le_pow_right (by decide) (by omega)) (Nat.log2_self_le hm.ne')
  have hfm := @shiftToTarget_mantissa spec m e acc
  have hfe := @shiftToTarget_exponent spec m e acc
  rw [← ht_def, ← hk] at hfm hfe
  generalize hfirst : shiftToTargetExponent spec m e acc = first at hfm hfe
  obtain ⟨em, e₁⟩ := first
  simp only at hfm hfe
  have hb := roundedMantissa_bounds em
  rw [hfm] at hb
  refine ⟨em.roundedMantissa, hb.1, hb.2, ?_⟩
  rw [roundWithAccuracy, hfirst]
  dsimp only
  rw [hfe, hek]
  by_cases hlt : em.roundedMantissa < 2 ^ spec.mantissaBits
  · rw [shiftToTarget_of_lt hlt htmin]
    dsimp only
    split
    · exact .inl ⟨‹_›, rfl⟩
    · rename_i h0
      refine .inr ⟨_, _, Nat.pos_of_ne_zero h0, rfl, ⟨hlt, htmin, ?_⟩, by omega, rfl⟩
      by_cases hb' : t = spec.minExponent
      · exact .inr hb'
      · exact .inl (le_trans (hnorm hb') hb.1)
  · have hr : em.roundedMantissa = 2 ^ spec.mantissaBits := by omega
    rw [hr, shiftToTarget_carry htmin]
    dsimp only
    rw [dif_neg (Nat.pos_of_ne_zero (by positivity)).ne']
    refine .inr ⟨_, _, _, rfl, ⟨?_, by omega, .inl le_rfl⟩, le_rfl, ?_⟩
    · exact Nat.pow_lt_pow_right (by decide) (by omega)
    · rw [zpow_add₀ (by norm_num), zpow_one]
      have hp : (2 : ℚ) ^ spec.mantissaBits = 2 ^ (spec.mantissaBits - 1) * 2 := by
        rw [← pow_succ, Nat.sub_add_cancel hmb]
      push_cast
      rw [hp]
      ring

/-- Rounding `m · 2^e` lands on the grid of the target exponent `t`: at or above every grid
point at or below `m · 2^e`, and at most one grid step above `m · 2^e`. It gives a fitting
finite float at `t` or `t + 1`, or a zero when no positive grid point lies below. -/
theorem roundWithAccuracy_grid (s : Sign) {m : Nat} {e : Int} (acc : Accuracy) (hm : 0 < m)
    (ht : e ≤ spec.targetExponent (totalExponent m e)) :
    (roundWithAccuracy spec s m e acc = .zero s ∧
        ∀ j : Nat, (j : ℚ) * 2 ^ spec.targetExponent (totalExponent m e) ≤ m * 2 ^ e → j = 0) ∨
      ∃ m' e' hm', roundWithAccuracy spec s m e acc = .finite s m' e' hm' ∧ Fits spec m' e' ∧
        e' ≤ spec.targetExponent (totalExponent m e) + 1 ∧
        (∀ j : Nat, (j : ℚ) * 2 ^ spec.targetExponent (totalExponent m e) ≤ m * 2 ^ e →
          (j : ℚ) * 2 ^ spec.targetExponent (totalExponent m e) ≤ m' * 2 ^ e') ∧
        (m' : ℚ) * 2 ^ e' ≤ m * 2 ^ e + 2 ^ spec.targetExponent (totalExponent m e) := by
  set t := spec.targetExponent (totalExponent m e) with ht_def
  set k := (t - e).toNat with hk
  have htk : (2 : ℚ) ^ t = 2 ^ e * 2 ^ k := by
    rw [← zpow_natCast, ← zpow_add₀ (by norm_num)]
    congr 1
    omega
  have hpe : (0 : ℚ) < 2 ^ e := zpow_pos (by norm_num) e
  have hbelow : ∀ j : Nat, (j : ℚ) * 2 ^ t ≤ m * 2 ^ e → j ≤ m / 2 ^ k := by
    intro j hj
    rw [htk, ← mul_assoc, mul_comm _ ((2 : ℚ) ^ e), mul_assoc, mul_comm (m : ℚ)] at hj
    have h := le_of_mul_le_mul_left hj hpe
    rw [Nat.le_div_iff_mul_le (Nat.two_pow_pos k)]
    exact_mod_cast h
  have habove : ((m / 2 ^ k : Nat) : ℚ) * 2 ^ t ≤ m * 2 ^ e := by
    have h : ((m / 2 ^ k * 2 ^ k : Nat) : ℚ) ≤ m := by exact_mod_cast Nat.div_mul_le_self m (2 ^ k)
    push_cast at h
    rw [htk]
    nlinarith
  obtain ⟨r, hr₁, hr₂, hcases⟩ := roundWithAccuracy_floor s acc hm ht
  rw [← ht_def, ← hk] at hr₁ hr₂
  rcases hcases with hzero | ⟨m', e', hm', heq, hfits, he', hval⟩
  · refine .inl ⟨hzero.2, fun j hj => ?_⟩
    have := hbelow j hj
    omega
  · refine .inr ⟨m', e', hm', heq, hfits, he', fun j hj => ?_, ?_⟩
    · rw [hval]
      have hj' : (j : ℚ) ≤ r := by exact_mod_cast le_trans (hbelow j hj) hr₁
      exact mul_le_mul_of_nonneg_right hj' (zpow_pos (by norm_num) t).le
    · rw [hval]
      have hr : (r : ℚ) ≤ ((m / 2 ^ k : Nat) : ℚ) + 1 := by exact_mod_cast hr₂
      have hpt : (0 : ℚ) < 2 ^ t := zpow_pos (by norm_num) t
      nlinarith

theorem round_of_fits (s : Sign) {m j : Nat} {e : Int}
    (hj : (e - spec.targetExponent (totalExponent m e)).toNat = j) (hm : 0 < m * 2 ^ j)
    (hf : Fits spec (m * 2 ^ j) (e - j)) : UnpackedFloat.round spec s m e = .finite s (m * 2 ^ j) (e - j) hm := by
  have h := roundWithAccuracy_of_fits s hm hf 0
  rw [Nat.pow_zero, Nat.mul_one, Nat.cast_zero, Int.sub_zero] at h
  simp only [UnpackedFloat.round, decreaseExponent, hj, Nat.shiftLeft_eq]
  exact h

end Formats

/-! ## Singles -/

theorem single_unpack_pack (u : UnpackedFloat) :
    (Float32.Model.pack u).unpack =
      UnpackedFloat.unpack Format.binary32 (UnpackedFloat.pack Format.binary32 u) := rfl

theorem normalized_bounds {a : Nat} (ha : 0 < a) (hl : a.log2 ≤ 23) :
    2 ^ 23 ≤ a * 2 ^ (23 - a.log2) ∧ a * 2 ^ (23 - a.log2) < 2 ^ 24 := by
  constructor
  · calc 2 ^ 23 = 2 ^ a.log2 * 2 ^ (23 - a.log2) := by rw [← Nat.pow_add]; congr 1; omega
      _ ≤ a * 2 ^ (23 - a.log2) := Nat.mul_le_mul_right _ (Nat.log2_self_le ha.ne')
  · calc a * 2 ^ (23 - a.log2) < 2 ^ (a.log2 + 1) * 2 ^ (23 - a.log2) :=
          Nat.mul_lt_mul_of_pos_right Nat.lt_log2_self (Nat.two_pow_pos _)
      _ = 2 ^ 24 := by rw [← Nat.pow_add]; congr 1; omega

/-- A nonzero natural below `2^23` converts to a single exactly, its mantissa shifted up to 24
bits. -/
theorem unpack_single_ofNat {n : Nat} (hn : 0 < n) (hn' : n < 2 ^ 23) :
    ∃ h, (Float32.ofNat n).toModel.unpack =
      .finite .positive (n * 2 ^ (23 - n.log2)) ((n.log2 : Int) - 23) h := by
  have hl : n.log2 < 23 := (Nat.log2_lt hn.ne').mpr hn'
  obtain ⟨hb₁, hb₂⟩ := normalized_bounds hn hl.le
  have hpos : 0 < n * 2 ^ (23 - n.log2) := Nat.mul_pos hn (Nat.two_pow_pos _)
  have hfits : Fits Format.binary32 (n * 2 ^ (23 - n.log2)) (0 - ((23 - n.log2 : Nat) : Int)) :=
    ⟨hb₂, by simp [Format.minExponent, Format.mantissaBits]; omega, .inl hb₁⟩
  have hround : UnpackedFloat.ofNat Format.binary32 n =
      .finite .positive (n * 2 ^ (23 - n.log2)) (0 - ((23 - n.log2 : Nat) : Int)) hpos := by
    unfold UnpackedFloat.ofNat UnpackedFloat.ofInt UnpackedFloat.normalize
    rw [Int.compare_eq_gt.mpr (by omega)]
    exact round_of_fits .positive (by simp [Format.targetExponent, totalExponent,
      Format.minExponent, Format.mantissaBits]; omega) hpos hfits
  have hconv : (UInt64.toFloat32 n.toUInt64).toModel.unpack =
      .finite .positive (n * 2 ^ (23 - n.log2)) (0 - ((23 - n.log2 : Nat) : Int)) hpos := by
    change (Float32.Model.pack (UnpackedFloat.ofNat Format.binary32 n.toUInt64.toNat)).unpack = _
    rw [UInt64.toNat_ofNat_of_lt' (lt_of_lt_of_le hn' (by decide)), hround, single_unpack_pack,
      unpack_pack_of_fits hpos hfits (show (0 - ((23 - n.log2 : Nat) : Int) + (127 : Nat) +
        (23 : Nat)).toNat + 1 < 2 ^ 8 by omega)]
  have hone : Float32.ofNat n = UInt64.toFloat32 n.toUInt64 * Float32.ofBits 0x3F800000 := by
    show Float32.ofScientific n false 0 = _
    rw [Float32.ofScientific, dif_pos ⟨hn', by decide⟩]
    rfl
  refine ⟨hpos, ?_⟩
  rw [hone, show Float32.ofBits 0x3F800000 = 1 from rfl, single_mul_one, hconv]
  congr 1
  omega

theorem unpack_single_ofInt (s : Sign) {a : Nat} (ha : 0 < a) (ha' : a < 2 ^ 23) :
    ∃ h, (Float32.ofInt (s.apply a)).toModel.unpack =
      .finite s (a * 2 ^ (23 - a.log2)) ((a.log2 : Int) - 23) h := by
  obtain ⟨h, hu⟩ := unpack_single_ofNat ha ha'
  refine ⟨h, ?_⟩
  cases s with
  | positive => exact hu
  | negative =>
    obtain ⟨n, rfl⟩ : ∃ n, a = n + 1 := ⟨a - 1, by omega⟩
    have hl : (n + 1).log2 < 23 := (Nat.log2_lt (by omega)).mpr ha'
    change (Float32.Model.pack (Float32.ofNat (n + 1)).toModel.unpack.neg).unpack = _
    rw [hu, UnpackedFloat.neg, single_unpack_pack]
    exact unpack_pack_of_fits h (fits_of_unpack hu)
      (show (((n + 1).log2 : Int) - 23 + (127 : Nat) + (23 : Nat)).toNat + 1 < 2 ^ 8 by omega)

/-- Dividing a normal single by `2^15` lowers its exponent by 15 and rounds nothing, while the
quotient stays normal. -/
theorem unpack_div_32768 {x : Float32} {s : Sign} {m : Nat} {e : Int} {hm : 0 < m}
    (hx : x.toModel.unpack = .finite s m e hm) (hn : 2 ^ 23 ≤ m) (hm' : m < 2 ^ 24)
    (he : -133 ≤ e) (he' : e ≤ 104) :
    (x / 32768).toModel.unpack = .finite s m (e - 15) hm := by
  have hlog : m.log2 = 23 := by
    rw [Nat.log2_eq_iff hm.ne']
    exact ⟨hn, hm'⟩
  have hfits : Fits Format.binary32 m (e - 15) :=
    ⟨hm', by simp [Format.minExponent, Format.mantissaBits]; omega, .inl hn⟩
  have hq : m <<< 24 / 2 ^ 23 = m * 2 ^ 1 := by
    rw [Nat.shiftLeft_eq, show m * 2 ^ 24 = m * 2 ^ 1 * 2 ^ 23 by ring,
      Nat.mul_div_cancel _ (Nat.two_pow_pos 23)]
  have hr : m <<< 24 % 2 ^ 23 = 0 := by
    rw [Nat.shiftLeft_eq, show m * 2 ^ 24 = m * 2 ^ 1 * 2 ^ 23 by ring]
    exact Nat.mul_mod_left _ _
  have ht : min (e - -8) (Format.binary32.targetExponent
      (totalExponent m e - totalExponent (2 ^ 23) (-8))) = e - 15 - (1 : Nat) := by
    simp only [Format.targetExponent, totalExponent, hlog, Format.minExponent, Format.mantissaBits,
      Nat.log2_two_pow]
    omega
  change (Float32.Model.pack (UnpackedFloat.div Format.binary32 x.toModel.unpack
    (32768 : Float32).toModel.unpack)).unpack = _
  rw [hx, show (32768 : Float32).toModel.unpack = .finite .positive (2 ^ 23) (-8) (by decide) from rfl]
  simp only [UnpackedFloat.div, divCore, ht]
  rw [show (e - -8 - (e - 15 - ((1 : Nat) : Int))).toNat = 24 by omega, hq, hr]
  have hs : s / Sign.positive = s := by cases s <;> rfl
  rw [show accuracyOfFraction 0 (2 ^ 23) = .exact from rfl, hs,
    roundWithAccuracy_of_fits s hm hfits 1, single_unpack_pack]
  exact unpack_pack_of_fits hm hfits
    (show (e - 15 + (127 : Nat) + (23 : Nat)).toNat + 1 < 2 ^ 8 by omega)

/-- A 16-bit code over `2^15` is a single, exactly: the code's magnitude shifted up to 24 bits,
at exponent `log2 |q| - 38`. -/
theorem unpack_decoded (s : Sign) {a : Nat} (ha : 0 < a) (ha' : a ≤ 32768) :
    ∃ h, (Float32.ofInt (s.apply a) / 32768).toModel.unpack =
      .finite s (a * 2 ^ (23 - a.log2)) ((a.log2 : Int) - 38) h := by
  obtain ⟨h, hu⟩ := unpack_single_ofInt s ha (by omega)
  have hl : a.log2 < 23 := (Nat.log2_lt ha.ne').mpr (by omega)
  obtain ⟨hb₁, hb₂⟩ := normalized_bounds ha hl.le
  refine ⟨h, ?_⟩
  rw [unpack_div_32768 hu hb₁ hb₂ (by omega) (by omega)]
  congr 1
  omega

theorem single_lt_iff (x y : Float32) :
    x < y ↔ UnpackedFloat.lt x.toModel.unpack y.toModel.unpack = true :=
  decide_eq_true_iff

/-- Truncating a finite float whose magnitude lies in `[a - 1, a)` gives `a - 1` with its
sign. -/
theorem roundToInt_of_between (s : Sign) {m : Nat} {e : Int} {a : Nat} (ha : 0 < a)
    (hlo : (a : ℚ) - 1 ≤ m * 2 ^ e) (hhi : (m : ℚ) * 2 ^ e < a) :
    roundToInt s m e = s.apply ((a - 1 : Nat) : Int) := by
  have hv : (m : ℚ) * 2 ^ e = ((m * 2 ^ e.toNat : Nat) : ℚ) / (2 ^ (-e).toNat : Nat) := by
    push_cast
    rw [← zpow_natCast, ← zpow_natCast, mul_div_assoc, ← zpow_sub₀ (by norm_num)]
    congr 2
    omega
  have hD : (0 : ℚ) < (2 ^ (-e).toNat : Nat) := by positivity
  rw [hv, le_div_iff₀ hD] at hlo
  rw [hv, div_lt_iff₀ hD] at hhi
  rw [roundToInt_eq]
  congr 2
  apply Nat.div_eq_of_lt_le
  · have h : (((a - 1) * 2 ^ (-e).toNat : Nat) : ℚ) ≤ (m * 2 ^ e.toNat : Nat) := by
      push_cast [Nat.cast_sub ha] at hlo ⊢
      exact hlo
    exact_mod_cast h
  · have h : ((m * 2 ^ e.toNat : Nat) : ℚ) < ((a - 1 + 1) * 2 ^ (-e).toNat : Nat) := by
      rw [Nat.sub_add_cancel ha]
      push_cast at hhi ⊢
      exact hhi
    exact_mod_cast h

/-- A rounded single truncates to `a - 1` when the exact value `m · 2^e` lies at or above
`a - 1` and a grid step of its target exponent `t ≤ 0` still leaves it below `a`: `a - 1` is a
grid point, so rounding cannot fall below it, and it cannot climb past `a`. -/
theorem toInt_round_between (s : Sign) (acc : Accuracy) (lo hi : Int) {m a : Nat} {e : Int}
    (hm : 0 < m) (ha : 0 < a) (hte : e ≤ Format.binary32.targetExponent (totalExponent m e))
    (ht : Format.binary32.targetExponent (totalExponent m e) ≤ 0)
    (hlo : (a : ℚ) - 1 ≤ m * 2 ^ e)
    (hhi : (m : ℚ) * 2 ^ e + 2 ^ Format.binary32.targetExponent (totalExponent m e) < a) :
    (Float32.Model.pack (roundWithAccuracy Format.binary32 s m e acc)).unpack.toInt lo hi =
      s.apply ((a - 1 : Nat) : Int) := by
  have hgrid := roundWithAccuracy_grid s acc hm hte
  generalize Format.binary32.targetExponent (totalExponent m e) = t at ht hhi hgrid
  have hj : (((a - 1) * 2 ^ (-t).toNat : Nat) : ℚ) * 2 ^ t = a - 1 := by
    push_cast [Nat.cast_sub ha]
    rw [mul_assoc, ← zpow_natCast, ← zpow_add₀ two_ne_zero,
      show (((-t).toNat : Nat) : Int) + t = 0 by omega, zpow_zero, mul_one]
  rw [← hj] at hlo
  rcases hgrid with ⟨hzero, hnone⟩ | ⟨m', e', hm', heq, hfits, he', hfloor, hceil⟩
  · -- no positive grid point lies below the value, so `a - 1` is zero
    have h1 : a = 1 := by
      rcases Nat.mul_eq_zero.mp (hnone _ hlo) with h | h
      · omega
      · exact absurd h (Nat.two_pow_pos _).ne'
    subst h1
    rw [hzero]
    cases s <;> rfl
  · rw [heq, single_unpack_pack, unpack_pack_of_fits hm' hfits
      (show (e' + (127 : Nat) + (23 : Nat)).toNat + 1 < 2 ^ 8 by omega)]
    exact roundToInt_of_between s ha (hj ▸ hfloor _ hlo) (lt_of_le_of_lt hceil hhi)

/-- A single times 32767 is the exact product, rounded once: 32767 is `32767 · 2^9 · 2^-9`. -/
theorem unpack_mul_32767 {x : Float32} {s : Sign} {m : Nat} {e : Int} {hm : 0 < m}
    (hx : x.toModel.unpack = .finite s m e hm) :
    (x * 32767).toModel.unpack = (Float32.Model.pack
      (roundWithAccuracy Format.binary32 s (m * (32767 * 2 ^ 9)) (e + -9) .exact)).unpack := by
  change (Float32.Model.pack (UnpackedFloat.mul _ x.toModel.unpack
    (32767 : Float32).toModel.unpack)).unpack = _
  rw [hx, show (32767 : Float32).toModel.unpack =
    .finite .positive (32767 * 2 ^ 9) (-9) (by decide) from rfl]
  simp only [UnpackedFloat.mul]
  rw [show s * Sign.positive = s by cases s <;> rfl]

section Decoded

variable {x : Float32} {s : Sign} {a : Nat} {h : 0 < a * 2 ^ (23 - a.log2)}

theorem not_lt_neg_one
    (hx : x.toModel.unpack = .finite s (a * 2 ^ (23 - a.log2)) ((a.log2 : Int) - 38) h)
    (ha : 0 < a) (ha' : a ≤ 32768) : ¬ x < -1 := by
  rw [single_lt_iff, hx,
    show (-1 : Float32).toModel.unpack = .finite .negative (2 ^ 23) (-23) (by decide) from rfl]
  cases s with
  | positive => simp [UnpackedFloat.lt, UnpackedFloat.compare]
  | negative =>
    simp only [UnpackedFloat.lt, UnpackedFloat.compare]
    have hl : a.log2 ≤ 15 := Nat.le_of_lt_succ ((Nat.log2_lt ha.ne').mpr (by omega))
    by_cases hL : a.log2 < 15
    · rw [Int.compare_eq_lt.mpr (by omega)]
      simp [Ordering.then, Ordering.swap]
    · -- the one code at `-1` itself
      have h15 : a.log2 = 15 := by omega
      have ha15 : a = 32768 := by
        have := Nat.log2_self_le ha.ne'
        rw [h15] at this
        omega
      subst ha15
      decide

theorem not_one_lt
    (hx : x.toModel.unpack = .finite s (a * 2 ^ (23 - a.log2)) ((a.log2 : Int) - 38) h)
    (ha : 0 < a) (hpos : s = .positive → a ≤ 32767) : ¬ 1 < x := by
  rw [single_lt_iff, hx,
    show (1 : Float32).toModel.unpack = .finite .positive (2 ^ 23) (-23) (by decide) from rfl]
  cases s with
  | negative => simp [UnpackedFloat.lt, UnpackedFloat.compare]
  | positive =>
    simp only [UnpackedFloat.lt, UnpackedFloat.compare]
    have hl : a.log2 < 15 := (Nat.log2_lt ha.ne').mpr (by have := hpos rfl; omega)
    rw [Int.compare_eq_gt.mpr (by omega)]
    simp [Ordering.then]

/-- Scaling a code over `2^15` by 32767 and truncating toward zero gives the code one step
closer to zero: `a · 32767 / 2^15` lies in `[a - 1, a)`, and the grid of its 47- or 48-bit
product is fine enough that rounding to 24 bits keeps it there. -/
theorem truncSingleInt16_mul_decoded
    (hx : x.toModel.unpack = .finite s (a * 2 ^ (23 - a.log2)) ((a.log2 : Int) - 38) h)
    (ha : 0 < a) (ha' : a ≤ 32768) :
    truncSingleInt16 (x * 32767) = s.apply ((a - 1 : Nat) : Int) := by
  have h₁ := Nat.log2_self_le ha.ne'
  have hl : a.log2 ≤ 15 := Nat.le_of_lt_succ ((Nat.log2_lt ha.ne').mpr (by omega))
  obtain ⟨hM, hM'⟩ := normalized_bounds ha (by omega)
  have hm : 0 < a * 2 ^ (23 - a.log2) * (32767 * 2 ^ 9) := by positivity
  unfold truncSingleInt16 truncClamp
  rw [unpack_mul_32767 hx]
  generalize hm_def : a * 2 ^ (23 - a.log2) * (32767 * 2 ^ 9) = m at hm
  generalize he_def : (a.log2 : Int) - 38 + -9 = e
  have hv : (m : ℚ) * 2 ^ e = a * 32767 / 32768 := by
    have h2 : (2 : ℚ) ^ (23 - a.log2) * 2 ^ 9 * 2 ^ e = 1 / 32768 := by
      rw [← zpow_natCast, ← zpow_natCast, ← zpow_add₀ two_ne_zero, ← zpow_add₀ two_ne_zero,
        show (((23 - a.log2 : Nat) : Int) + ((9 : Nat) : Int) + e) = -15 by omega]
      norm_num
    rw [← hm_def]
    push_cast
    linear_combination (a * 32767 : ℚ) * h2
  -- its mantissa has 47 or 48 bits, so the rounding grid is `2^(log2 a - 24)` or the next
  have hmlo : 2 ^ 46 ≤ m := by
    rw [← hm_def]
    calc 2 ^ 46 = 2 ^ 23 * 2 ^ 23 := by norm_num
      _ ≤ _ := Nat.mul_le_mul hM (by norm_num)
  have hmhi : m < 2 ^ 48 := by
    rw [← hm_def]
    calc _ < 2 ^ 24 * 2 ^ 24 := Nat.mul_lt_mul'' hM' (by norm_num)
      _ = 2 ^ 48 := by norm_num
  have hlog₁ := (Nat.le_log2 hm.ne').mpr hmlo
  have hlog₂ := (Nat.log2_lt hm.ne').mpr hmhi
  have ht : (a.log2 : Int) - 24 ≤ Format.binary32.targetExponent (totalExponent m e) ∧
      Format.binary32.targetExponent (totalExponent m e) ≤ (a.log2 : Int) - 23 := by
    simp only [Format.targetExponent, totalExponent, Format.minExponent, Format.mantissaBits]
    omega
  -- one grid step is at most `2^(log2 a - 23)`, below the gap `a / 2^15` left under `a`
  have hstep : (m : ℚ) * 2 ^ e + 2 ^ Format.binary32.targetExponent (totalExponent m e) < a := by
    have h2t := zpow_le_zpow_right₀ (show (1 : ℚ) ≤ 2 by norm_num) ht.2
    have hpow : (2 : ℚ) ^ ((a.log2 : Int) - 23) * 32768 < a := by
      rw [show (32768 : ℚ) = 2 ^ (15 : Int) by norm_num, ← zpow_add₀ two_ne_zero]
      calc (2 : ℚ) ^ ((a.log2 : Int) - 23 + 15) < 2 ^ (a.log2 : Int) :=
            zpow_lt_zpow_right₀ (by norm_num) (by omega)
        _ ≤ a := by rw [zpow_natCast]; exact_mod_cast h₁
    rw [hv]
    linarith
  have hlo : (a : ℚ) - 1 ≤ m * 2 ^ e := by
    have ha'' : (a : ℚ) ≤ 32768 := by exact_mod_cast ha'
    rw [hv]
    linarith
  rw [toInt_round_between s .exact _ _ hm ha (by omega) (by omega) hlo hstep]
  cases s <;> simp [Sign.apply] <;> omega

end Decoded

end PhaseVocoder.Ieee

namespace PhaseVocoder.Wave

open Float.Model.UnpackedFloat Ieee

/-- The code `s · a` over `2^15` is never clamped by the writer, and truncates to `s · (a - 1)`. -/
theorem pcm16Code_apply_decoded (s : Sign) {a : Nat} (ha : 0 < a) (ha' : a ≤ 32768)
    (hpos : s = .positive → a ≤ 32767) :
    pcm16Code (Float32.ofInt (s.apply a) / 32768) = s.apply ((a - 1 : Nat) : Int) := by
  obtain ⟨h, hx⟩ := unpack_decoded s ha ha'
  unfold pcm16Code
  rw [if_neg (not_lt_neg_one hx ha ha'), if_neg (not_one_lt hx ha hpos),
    truncSingleInt16_mul_decoded hx ha ha']

/-- A decoded 16-bit code `q / 2^15` written again as a 16-bit code gives `q` one step closer to
zero: decoding divides by `2^15`, encoding scales by `2^15 - 1` and truncates. -/
theorem pcm16Code_decoded (q : Int) (hlo : -32768 ≤ q) (hhi : q ≤ 32767) :
    pcm16Code (Float32.ofInt q / 32768) = q - q.sign := by
  rcases lt_trichotomy q 0 with hq | rfl | hq
  · have h := @pcm16Code_apply_decoded .negative q.natAbs (by omega) (by omega) (fun h => by cases h)
    simp only [Sign.apply] at h
    rw [show -(q.natAbs : Int) = q by omega] at h
    rw [h, Int.sign_eq_neg_one_of_neg hq]
    omega
  · rfl
  · have h := @pcm16Code_apply_decoded .positive q.natAbs (by omega) (by omega) (fun _ => by omega)
    simp only [Sign.apply] at h
    rw [show (q.natAbs : Int) = q by omega] at h
    rw [h, Int.sign_eq_one_of_pos hq]
    omega

end PhaseVocoder.Wave
