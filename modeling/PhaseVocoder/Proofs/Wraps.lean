import PhaseVocoder.Proofs.ExactOperations
import PhaseVocoder.Proofs.Exact
import PhaseVocoder.Proofs.PhaseBounds

/-!
# Wrapped phases are canonical representatives (shift/phase.rs:14-34)

Both wraps subtract the even integer `q + q % 2` next to the truncation `q` of their argument,
away from zero, and then fold the lower end of the interval onto the upper one. Truncation goes
toward zero, so that integer is within one of the argument (`abs_sub_evenTurn_le`), and the fold
leaves the representative in the half-open interval (`fold_eq_toIocMod`). Hence:

* over the reals, `halfTurns x` is `x` reduced into `(-1, 1]` modulo 2
  (`halfTurns_eq_toIocMod`) and `radians p` is the principal value in `(-π, π]` of the angle
  `p` (`radians_eq_toReal`), for arguments below `2^61` half turns;
* in binary64 every step of `halfTurns` is exact once its turn count is within one of the
  argument and converts back exactly (`halfTurns_of_evenTurns`), as it does for a double below
  `2^51`, so its result is the reduction of the double's own value (`halfTurns_value`); a NaN
  comes through as NaN (`halfTurns_nan`).
-/

namespace PhaseVocoder

open Real Ieee Float.Model Float.Model.UnpackedFloat

/-! ## The even turn count and the fold -/

section Fold

variable {K : Type} [Field K] [LinearOrder K] [IsStrictOrderedRing K]

/-- The even integer next to a truncation `q` of `a`, away from zero, is within one of `a`:
an odd `q` is moved one further from zero, to the side where `a` lies. -/
theorem abs_sub_evenTurn_le {a : K} {q : ℤ} (h₁ : |(q : K)| ≤ |a|) (h₂ : |a - q| < 1) :
    |a - ((q + q.tmod 2 : ℤ) : K)| ≤ 1 := by
  rw [abs_lt] at h₂
  rcases Int.tmod_two_eq q with h | h | h
  · -- an odd negative `q`: `a` lies in `(q - 1, q]`
    have hq : q < 0 := by rw [Int.tmod_eq_emod] at h; split at h <;> omega
    have hq' : (q : K) ≤ -1 := by exact_mod_cast (by omega : q ≤ -1)
    have ha : a ≤ q := by
      rw [abs_of_neg (by linarith : (q : K) < 0)] at h₁
      rcases le_or_gt 0 a with h0 | h0
      · linarith
      · rw [abs_of_neg h0] at h₁; linarith
    rw [h, abs_le]; push_cast; constructor <;> linarith
  · rw [h, abs_le]; push_cast; constructor <;> linarith
  · -- an odd positive `q`: `a` lies in `[q, q + 1)`
    have hq : 0 < q := by rw [Int.tmod_eq_emod] at h; split at h <;> omega
    have hq' : (1 : K) ≤ q := by exact_mod_cast hq
    have ha : (q : K) ≤ a := by
      rw [abs_of_pos (by linarith : (0 : K) < q)] at h₁
      rcases le_or_gt 0 a with h0 | h0
      · rw [abs_of_nonneg h0] at h₁; exact h₁
      · linarith
    rw [h, abs_le]; push_cast; constructor <;> linarith

theorem evenTurn_eq_two_mul (q : ℤ) : q + q.tmod 2 = 2 * (q - q.tdiv 2) := by
  rw [Int.tmod_def]; ring

variable [Archimedean K]

/-- Folding the lower end of `[-P/2, P/2]` onto the upper one leaves the representative in
`(-P/2, P/2]` of `a` modulo `P`. -/
theorem fold_eq_toIocMod {P : K} (hP : 0 < P) {a : K} (m : ℤ) (h : |a - m * P| ≤ P / 2) :
    (if a - m * P ≤ -(P / 2) then a - m * P + P else a - m * P) = toIocMod hP (-(P / 2)) a := by
  rw [abs_le] at h
  symm
  rw [toIocMod_eq_iff]
  split
  · exact ⟨⟨by linarith, by linarith⟩, m - 1, by rw [zsmul_eq_mul]; push_cast; ring⟩
  · rename_i hlo
    exact ⟨⟨by linarith, by linarith⟩, m, by rw [zsmul_eq_mul]; ring⟩

end Fold

/-! ## Over the reals -/

namespace Exact

/-- Truncation of a real of magnitude at most `2^62` goes toward zero, less than one away. -/
theorem truncate_toward_zero {x : ℝ} (hx : |x| ≤ 2 ^ 62) :
    |(Scalar.truncate x : ℝ)| ≤ |x| ∧ |x - Scalar.truncate x| < 1 := by
  obtain ⟨h₁, h₂⟩ := truncate_spec hx
  refine ⟨?_, h₁⟩
  have hq : Scalar.truncate x = if 0 ≤ x then ⌊x⌋ else ⌈x⌉ := by
    have hb : |Scalar.truncate x| ≤ 4611686018427387904 := by
      have h : |(Scalar.truncate x : ℝ)| ≤ 4611686018427387904 := h₂.trans (by norm_num)
      exact_mod_cast h
    rw [abs_le, truncate_eq] at hb
    rw [truncate_eq]
    omega
  rw [hq]
  split
  · rename_i h0
    rw [abs_of_nonneg (by exact_mod_cast Int.floor_nonneg.mpr h0), abs_of_nonneg h0]
    exact Int.floor_le x
  · rename_i h0
    have h0 := not_le.mp h0
    rw [abs_of_nonpos (by exact_mod_cast Int.ceil_le.mpr (by push_cast; linarith)),
      abs_of_neg h0, neg_le_neg_iff]
    exact Int.le_ceil x

end Exact

namespace Phase

open Exact

theorem evenTurns_of_truncate {α : Type} [Scalar α] {x : α} (hq : |Scalar.truncate x| ≤ 2 ^ 62) :
    evenTurns x = .ok (2 * (Scalar.truncate x - (Scalar.truncate x).tdiv 2)) := by
  have ht₁ := Int.tmod_lt_of_pos (Scalar.truncate x) (by decide : (0 : ℤ) < 2)
  have ht₂ := Int.lt_tmod_of_pos (Scalar.truncate x) (by decide : (0 : ℤ) < 2)
  rw [abs_le] at hq
  unfold evenTurns
  rw [Word.add_eq_ok (by simp only [Word.i64]; omega), evenTurn_eq_two_mul]

/-- Over the reals the even turn count of an argument below `2^62` is twice an integer `m`
with `x` within one of `2m`. -/
theorem evenTurns_within_one {x : ℝ} (hx : |x| ≤ 2 ^ 62) :
    ∃ m : ℤ, evenTurns x = .ok (2 * m) ∧ |x - m * 2| ≤ 1 := by
  obtain ⟨h₁, h₂⟩ := truncate_toward_zero hx
  have hq : |Scalar.truncate x| ≤ 2 ^ 62 := by
    have : |(Scalar.truncate x : ℝ)| ≤ 2 ^ 62 := h₁.trans hx
    exact_mod_cast this
  refine ⟨_, evenTurns_of_truncate hq, ?_⟩
  have h := abs_sub_evenTurn_le h₁ h₂
  rwa [evenTurn_eq_two_mul, Int.cast_mul, Int.cast_two, mul_comm] at h

/-- Over the reals, `halfTurns` reduces an argument below `2^62` into `(-1, 1]` modulo 2. -/
theorem halfTurns_eq_toIocMod {x : ℝ} (hx : |x| ≤ 2 ^ 62) :
    halfTurns x = .ok (toIocMod two_pos (-1) x) := by
  obtain ⟨m, hm, hb⟩ := evenTurns_within_one hx
  have hf := fold_eq_toIocMod two_pos m (a := x) (by norm_num; exact hb)
  rw [show (2 : ℝ) / 2 = 1 by norm_num] at hf
  unfold halfTurns
  rw [hm, ok_bind]
  simp only [Exact.ofInt_eq, Exact.le_eq, Exact.numeral_one, Int.cast_mul,
    Int.cast_ofNat, decide_eq_true_eq]
  rw [← hf]
  congr 1
  simp only [mul_comm (2 : ℝ)]

/-- Over the reals, `radians` takes a phase below `2^63` to its principal value in `(-π, π]`. -/
theorem radians_eq_toReal {p : ℝ} (hp : |p| ≤ 2 ^ 63) :
    radians p = .ok (p : Real.Angle).toReal := by
  have hπ := Real.pi_gt_three
  have hx : |p * π⁻¹| ≤ 2 ^ 62 := by
    rw [abs_mul, abs_inv, abs_of_pos Real.pi_pos]
    calc |p| * π⁻¹ ≤ 2 ^ 63 * 3⁻¹ := by gcongr
      _ ≤ 2 ^ 62 := by norm_num
  obtain ⟨m, hm, hb⟩ := evenTurns_within_one hx
  have hb' : |p - m * (2 * π)| ≤ 2 * π / 2 := by
    have h : p - m * (2 * π) = π * (p * π⁻¹ - m * 2) := by field_simp
    rw [h, abs_mul, abs_of_pos Real.pi_pos]
    nlinarith [Real.pi_pos]
  have hf := fold_eq_toIocMod Real.two_pi_pos m hb'
  rw [show 2 * π / 2 = π by ring] at hf
  unfold radians
  rw [show (p * Scalar.invPi : ℝ) = p * π⁻¹ from rfl, hm, ok_bind, Real.Angle.toReal_coe, ← hf]
  simp only [Exact.ofInt_eq, Exact.le_eq, Exact.pi_eq, Int.cast_mul,
    Int.cast_ofNat, decide_eq_true_eq]
  rw [show π * (2 * (m : ℝ)) = m * (2 * π) by ring]
  rfl

end Phase

/-! ## In binary64 -/

namespace Ieee

theorem value_on_grid {x : Float} {a : ℚ} (hx : value x = some a) :
    ∃ k g : ℤ, k.natAbs < 2 ^ 53 ∧ -1074 ≤ g ∧ g ≤ 971 ∧ a = k * 2 ^ g := by
  have hp := packable_unpack x.toModel
  rcases unpackedValue_eq_some hx with ⟨s, -, rfl⟩ | ⟨s, m, e, hm, h, rfl⟩
  · exact ⟨0, 0, by decide, by decide, by decide, by simp⟩
  · rw [h] at hp
    obtain ⟨hlt, hlo, hhi, -⟩ := hp
    refine ⟨s.apply m, e, ?_, hlo, hhi, rfl⟩
    cases s <;> simpa [Sign.apply] using hlt

/-- A double of magnitude at least one is a whole multiple of `2^-52`. -/
theorem value_on_unit_grid {x : Float} {a : ℚ} (hx : value x = some a) (ha : 1 ≤ |a|) :
    ∃ k : ℤ, a = k * 2 ^ (-52 : ℤ) := by
  have hp := packable_unpack x.toModel
  rcases unpackedValue_eq_some hx with ⟨s, -, rfl⟩ | ⟨s, m, e, hm, h, hxa⟩
  · norm_num at ha
  · rw [h] at hp
    obtain ⟨hlt, -, -, -⟩ := hp
    -- a mantissa below `2^53` needs an exponent of at least `-52` to reach one
    have he : -52 ≤ e := by
      by_contra hlt'
      have hm' : (m : ℚ) < 2 ^ 53 := by exact_mod_cast hlt
      have he' : (2 : ℚ) ^ e ≤ 2 ^ (-53 : ℤ) := zpow_le_zpow_right₀ (by norm_num) (by omega)
      have hb : |a| < 1 := by
        rw [hxa, abs_mul, apply_cast, Int.cast_natCast, abs_mul, abs_apply_one,
          one_mul, abs_of_nonneg (by positivity), abs_of_pos (zpow_pos two_pos _)]
        calc (m : ℚ) * 2 ^ e < 2 ^ 53 * 2 ^ (-53 : ℤ) :=
              mul_lt_mul hm' he' (zpow_pos two_pos _) (by positivity)
          _ = 1 := by norm_num
      linarith
    refine ⟨s.apply 1 * m * 2 ^ (e + 52).toNat, ?_⟩
    rw [hxa, apply_cast]
    push_cast
    rw [mul_assoc (_ * _ : ℚ), ← zpow_natCast, ← zpow_add₀ two_ne_zero,
      show ((e + 52).toNat : ℤ) + -52 = e by omega]

theorem value_ofNat_one : value (Scalar.ofNat 1 : Float) = some 1 := by
  rw [value_of_unpack (s := .positive) (m := 2 ^ 52) (e := -52) (h := by decide) rfl]
  norm_num [Sign.apply]

end Ieee

namespace Phase

/-- In binary64, the even turn count of a double below `2^51` is twice an integer `m` with the
double's value within one of `2m`. -/
theorem evenTurns_value {x : Float} {a : ℚ} (hx : value x = some a) (ha : |a| ≤ 2 ^ 51) :
    ∃ m : ℤ, evenTurns x = .ok (2 * m) ∧ |a - m * 2| ≤ 1 := by
  obtain ⟨h₁, h₂⟩ := truncInt64_spec hx (ha.trans (by norm_num))
  have hq : |Scalar.truncate x| ≤ 2 ^ 62 := by
    have : |(truncInt64 x : ℚ)| ≤ 2 ^ 62 := h₁.trans (ha.trans (by norm_num))
    exact_mod_cast this
  refine ⟨_, evenTurns_of_truncate hq, ?_⟩
  have h := abs_sub_evenTurn_le h₁ h₂
  rwa [evenTurn_eq_two_mul, Int.cast_mul, Int.cast_two, mul_comm] at h

/-- In binary64, `halfTurns` is exact once the even turn count `2m` of a double is within one of
its value and converts exactly: the result is the double's value reduced into `(-1, 1]` modulo
2. The difference with the turn count lies on the grid of the argument, or on the grid `2^-52`
once the count is not zero; the fold adds two only to `-1`. -/
theorem halfTurns_of_evenTurns {x : Float} {a : ℚ} {m : ℤ} (hx : value x = some a)
    (hm : evenTurns x = .ok (2 * m)) (hb : |a - m * 2| ≤ 1)
    (hy : value (Scalar.ofInt (2 * m) : Float) = some ((2 * m : ℤ) : ℚ)) :
    ∃ r, halfTurns x = .ok r ∧ value r = some (toIocMod two_pos (-1) a) := by
  have hw : value (x - Scalar.ofInt (2 * m)) = some (a - m * 2) := by
    have hd : a - ((2 * m : ℤ) : ℚ) = a - m * 2 := by push_cast; ring
    rw [← hd]
    by_cases hm0 : m = 0
    · subst hm0
      obtain ⟨k, g, hk, hg, hg', hv⟩ := value_on_grid hx
      exact value_sub_exact hx hy hk hg hg' (by rw [hv]; simp)
    · have h1 : 1 ≤ |a| := by
        have : 1 ≤ |(m : ℚ)| := by exact_mod_cast Int.one_le_abs hm0
        rw [abs_le] at hb
        rcases le_or_gt 0 (m : ℚ) with h0 | h0
        · rw [abs_of_nonneg h0] at this; rw [le_abs]; left; linarith
        · rw [abs_of_neg h0] at this; rw [le_abs]; right; linarith
      obtain ⟨k, hk⟩ := value_on_unit_grid hx h1
      refine value_sub_exact hx hy (k := k - 2 * m * 2 ^ 52) (g := -52) ?_ (by norm_num)
        (by norm_num) (by rw [hk]; push_cast; ring)
      have hk' : |((k - 2 * m * 2 ^ 52 : ℤ) : ℚ)| ≤ 2 ^ 52 := by
        have h52 : (2 : ℚ) ^ (-52 : ℤ) * 2 ^ (52 : ℤ) = 1 := by norm_num
        have e : ((k - 2 * m * 2 ^ 52 : ℤ) : ℚ) = (a - m * 2) * 2 ^ (52 : ℤ) := by
          rw [hk]; push_cast; linear_combination (-(k : ℚ)) * h52
        rw [e, abs_mul, abs_of_pos (zpow_pos two_pos (52 : ℤ) : (0 : ℚ) < 2 ^ (52 : ℤ))]
        calc |a - m * 2| * 2 ^ (52 : ℤ) ≤ 1 * 2 ^ (52 : ℤ) := by gcongr
          _ = 2 ^ 52 := by norm_num
      have : |k - 2 * m * 2 ^ 52| ≤ 2 ^ 52 := by exact_mod_cast hk'
      rw [abs_le] at this; omega
  have hf := fold_eq_toIocMod two_pos m (a := a) (by norm_num; exact hb)
  rw [show (2 : ℚ) / 2 = 1 by norm_num] at hf
  have hneg : value (-(Scalar.ofNat 1) : Float) = some (-1) := value_neg value_ofNat_one
  have hle : (x - Scalar.ofInt (2 * m) ≤ -(Scalar.ofNat 1 : Float)) ↔ a - m * 2 ≤ -1 :=
    le_iff hw hneg
  unfold halfTurns
  rw [hm, ok_bind]
  refine ⟨_, rfl, ?_⟩
  split
  · -- only `-1` itself is folded, onto one
    rename_i hc
    have hlo : a - m * 2 ≤ -1 := hle.mp (of_decide_eq_true hc)
    have h1 : a - m * 2 = -1 := le_antisymm hlo (by rw [abs_le] at hb; linarith)
    rw [← hf, if_pos hlo]
    exact value_add_exact hw value_two (k := 1) (g := 0) (by decide) (by decide) (by decide)
      (by rw [h1]; norm_num)
  · rename_i hc
    have hlo : ¬ a - m * 2 ≤ -1 := fun h => hc (decide_eq_true (hle.mpr h))
    rw [hw, ← hf, if_neg hlo]

/-- In binary64, `halfTurns` of a double below `2^51` is exact: the result is the double's value
reduced into `(-1, 1]` modulo 2. -/
theorem halfTurns_value {x : Float} {a : ℚ} (hx : value x = some a) (ha : |a| ≤ 2 ^ 51) :
    ∃ r, halfTurns x = .ok r ∧ value r = some (toIocMod two_pos (-1) a) := by
  obtain ⟨m, hm, hb⟩ := evenTurns_value hx ha
  -- the turn count is within one of the argument, so far below `2^53`
  have hn : (2 * m).natAbs < 2 ^ 53 := by
    have hb' := abs_le.mp hb
    have ha' := abs_le.mp ha
    have : |(2 * m : ℤ)| ≤ 2 ^ 52 := by
      have : |((2 * m : ℤ) : ℚ)| ≤ 2 ^ 52 := by
        push_cast; rw [abs_le]; constructor <;> nlinarith
      exact_mod_cast this
    rw [abs_le] at this; omega
  exact halfTurns_of_evenTurns hx hm hb (value_ofInt_exact hn)

theorem halfTurns_nan {x : Float} (hx : IsNaN x) : ∃ r, halfTurns x = .ok r ∧ IsNaN r := by
  have hw := isNaN_sub_left hx (Scalar.ofInt 0 : Float)
  unfold halfTurns
  rw [evenTurns_nan hx, ok_bind]
  refine ⟨_, rfl, ?_⟩
  split
  · exact isNaN_add_left hw _
  · exact hw

end Phase

end PhaseVocoder
