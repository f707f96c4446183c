import PhaseVocoder.Proofs.Wraps
import PhaseVocoder.Proofs.Spectrum

/-!
# Frequency estimation from the phase advance (shift/analysis.rs:59-82)

Analysis reads bin `k`'s frequency as `k + d`, where the deviation `d` is twice the wrap into
`(-1, 1]` of the observed phase advance less the expected one, in half turns. The expected
advance uses `k mod 4` only; the remaining `(k - k mod 4) · π/2` is a whole number of turns.

* Over the reals, `d` lies in `(-2, 2]` and `(k + d) · π/2` is the observed advance
  `arg X_k - last_k` up to whole turns; it is the only deviation in `(-2, 2]` that is
  (`analyze_deviation`). Advances a bin apart differ by a quarter turn, so two deviations with
  the same advance are four bins apart or equal (`deviation_unique`).
* In binary64, with an angle function that gives NaN or values within 4, the deviation is
  NaN exactly when the argument or the last phase is, and otherwise lies in `(-2, 2]`: the wrap
  and the doubling are exact (`analyze_deviation_binary64`).
-/

namespace PhaseVocoder

open Real Ieee

namespace Analysis

/-! ## Over the reals -/

/-- Two deviations in `(-2, 2]` whose frequencies advance alike over one hop are equal: the
advances of frequencies four bins apart differ by a whole turn. -/
theorem deviation_unique {k d d' : ℝ} (hd : d ∈ Set.Ioc (-2) 2) (hd' : d' ∈ Set.Ioc (-2) 2)
    (h : (((k + d) * (π / 2) : ℝ) : Real.Angle) = ((k + d') * (π / 2) : ℝ)) : d = d' := by
  obtain ⟨n, hn⟩ := Real.Angle.angle_eq_iff_two_pi_dvd_sub.mp h
  have h4 : d - d' = 4 * n := by
    have h0 : (d - d' - 4 * n) * π = 0 := by linear_combination 2 * hn
    have := (mul_eq_zero.mp h0).resolve_right Real.pi_ne_zero
    linarith
  -- `|d - d'| < 4`, so the whole number of turns is zero
  have hn₁ : n < 1 := by
    have : (n : ℝ) < 1 := by linarith [hd.1, hd.2, hd'.1, hd'.2]
    exact_mod_cast this
  have hn₂ : -1 < n := by
    have : (-1 : ℝ) < n := by linarith [hd.1, hd.2, hd'.1, hd'.2]
    exact_mod_cast this
  have : n = 0 := by omega
  subst this
  simp only [Int.cast_zero, mul_zero] at h4
  linarith

/-- Over the reals, analysing bin `k` against a last phase below `2^60` keeps the argument as
the new last phase and reads the frequency `k + d`, with `d` in `(-2, 2]` and `(k + d) · π/2`
the observed advance `arg c - last` up to whole turns. -/
theorem analyzeBin_deviation (k : ℕ) {last : ℝ} (hl : |last| ≤ 2 ^ 60)
    (c : Phasor ℝ) :
    ∃ d ∈ Set.Ioc (-2 : ℝ) 2, analyzeBin k last c = .ok (c.arg, ⟨c.norm, k + d⟩) ∧
      (((k + d) * (π / 2) : ℝ) : Real.Angle) = ((c.arg - last : ℝ) : Real.Angle) := by
  have hπ₁ := Real.pi_gt_three
  have hπ₂ := Real.pi_le_four
  have ha := abs_le.1 c.abs_arg_le
  rw [abs_le] at hl
  have hm₁ : ((k % 4 : ℕ) : ℝ) ≤ 3 := by
    exact_mod_cast Nat.le_of_lt_succ (Nat.mod_lt k (by decide))
  have hm₀ : (0 : ℝ) ≤ ((k % 4 : ℕ) : ℝ) := Nat.cast_nonneg _
  set δ : ℝ := (c.arg - last - (k % 4 : ℕ) * (π / 2)) * π⁻¹ with hδ
  have hδb : |δ| ≤ 2 ^ 61 := by
    have hd : |c.arg - last - (k % 4 : ℕ) * (π / 2)| ≤ 2 ^ 61 * 3 := by
      rw [abs_le]; constructor <;> nlinarith
    calc |δ| = |c.arg - last - (k % 4 : ℕ) * (π / 2)| * π⁻¹ := by
          rw [hδ, abs_mul, abs_inv, abs_of_pos Real.pi_pos]
      _ ≤ 2 ^ 61 * 3 * 3⁻¹ := by gcongr
      _ = 2 ^ 61 := by norm_num
  have hw := Phase.halfTurns_eq_toIocMod (hδb.trans (by norm_num))
  have hmem := toIocMod_mem_Ioc two_pos (-1) δ
  refine ⟨toIocMod two_pos (-1) δ * 2, ⟨by linarith [hmem.1], by linarith [hmem.2]⟩, ?_, ?_⟩
  · unfold analyzeBin
    simp only [Window.expectedCycles_eq, Exact.invPi_eq, Exact.ofNat_eq]
    rw [← hδ, hw, ok_bind]
    rfl
  · -- the expected advance is a whole number of turns away from `k · π/2`
    have hk4 : (k : ℝ) = 4 * ((k / 4 : ℕ) : ℝ) + ((k % 4 : ℕ) : ℝ) := by
      exact_mod_cast (Nat.div_add_mod k 4).symm
    refine Real.Angle.angle_eq_iff_two_pi_dvd_sub.mpr ⟨(k / 4 : ℕ) - toIocDiv two_pos (-1) δ, ?_⟩
    rw [← self_sub_toIocDiv_zsmul, zsmul_eq_mul, hδ, Int.cast_sub, Int.cast_natCast]
    field_simp
    linear_combination π * hk4

/-- Over the reals, analysis against last phases below `2^60` always succeeds. The new last
phases are the arguments, and bin `k`'s frequency is `k + d_k`, where `d_k` is the one
deviation in `(-2, 2]` whose advance over one hop, `(k + d_k) · π/2`, is the observed advance
`arg X_k - last_k` up to whole turns. -/
theorem analyze_deviation {last : Vector ℝ 513} (hl : ∀ k, |last.get k| ≤ 2 ^ 60)
    (S : Vector (Phasor ℝ) 513) :
    ∃ d : Fin 513 → ℝ, analyze last S = .ok (Vector.ofFn fun k => (S.get k).arg,
        Vector.ofFn fun k => ⟨(S.get k).norm, k.val + d k⟩) ∧
      ∀ k d', (d' ∈ Set.Ioc (-2) 2 ∧ (((k.val + d') * (π / 2) : ℝ) : Real.Angle) =
        ((S.get k).arg - last.get k : ℝ)) ↔ d' = d k := by
  choose d hd hd' using fun k : Fin 513 => analyzeBin_deviation k.val (hl k) (S.get k)
  refine ⟨d, analyze_eq fun k => (hd' k).1, fun k d' => ⟨fun ⟨h₁, h₂⟩ => ?_, ?_⟩⟩
  · exact deviation_unique h₁ (hd k) (h₂.trans (hd' k).2.symm)
  · rintro rfl
    exact ⟨hd k, (hd' k).2⟩

end Analysis

/-! ## In binary64 -/

namespace Ieee

theorem not_isNaN_of_value {x : Float} {q : ℚ} (h : value x = some q) : ¬ IsNaN x := by
  intro hn
  unfold value at h
  rw [hn] at h
  simp [unpackedValue] at h

namespace Within

variable {x y : Float} {A B : ℚ} {N : Int}

theorem isNaN_sub_iff (hx : Within A x) (hy : Within B y) (hN : -1022 ≤ N) (hN' : N ≤ 1022)
    (h : A + B ≤ 2 ^ N) : IsNaN (x - y) ↔ IsNaN x ∨ IsNaN y := by
  refine ⟨fun hn => ?_, fun h => h.elim (isNaN_sub_left · y) (isNaN_sub_right x ·)⟩
  rcases hx with hx | ⟨a, ha, hA⟩
  · exact .inl hx
  rcases hy with hy | ⟨b, hb, hB⟩
  · exact .inr hy
  obtain ⟨q, hq, -⟩ := value_sub ha hb hN hN' ((abs_sub a b).trans (add_le_add hA hB) |>.trans h)
  exact absurd hn (not_isNaN_of_value hq)

theorem isNaN_mul_iff (hx : Within A x) (hy : Within B y) (hN : -1022 ≤ N) (hN' : N ≤ 1022)
    (h : A * B ≤ 2 ^ N) : IsNaN (x * y) ↔ IsNaN x ∨ IsNaN y := by
  refine ⟨fun hn => ?_, fun h => h.elim (isNaN_mul_left · y) (isNaN_mul_right x ·)⟩
  rcases hx with hx | ⟨a, ha, hA⟩
  · exact .inl hx
  rcases hy with hy | ⟨b, hb, hB⟩
  · exact .inr hy
  have hab : |a * b| ≤ A * B := by
    rw [abs_mul]; exact mul_le_mul hA hB (abs_nonneg b) ((abs_nonneg a).trans hA)
  obtain ⟨q, hq, -⟩ := value_mul ha hb hN hN' (hab.trans h)
  exact absurd hn (not_isNaN_of_value hq)

end Within

end Ieee

section Binary64

variable (arg : Float → Float → Float)

/-- One analysed bin in binary64: the deviation is NaN exactly when the argument or the last
phase is, and otherwise lies in `(-2, 2]`. -/
theorem analyzeBin_deviation_binary64 (harg : ∀ y x, Within 4 (arg y x)) (k : Nat)
    {last : Float} (hl : Within 4 last) (c : Phasor Float) :
    letI : Scalar Float := binary64With arg
    ∃ d : Float, Analysis.analyzeBin k last c = .ok (c.arg, ⟨c.norm, Scalar.ofNat k + d⟩) ∧
      (IsNaN d ↔ IsNaN c.arg ∨ IsNaN last) ∧
      (¬ IsNaN d → ∃ q ∈ Set.Ioc (-2 : ℚ) 2, value d = some q) := by
  have hp : Within 4 (arg c.im c.re) := harg c.im c.re
  have hd₁ : Within 9 (arg c.im c.re - last) :=
    (hp.sub hl (N := 3) (by norm_num) (by norm_num) (by norm_num)).mono (by norm_num)
  have hd₂ : Within 19 (arg c.im c.re - last - Scalar.ofNat (k % 4) * Window.expectedCycles) :=
    (hd₁.sub (within_expected k) (N := 5) (by norm_num) (by norm_num) (by norm_num)).mono
      (by norm_num)
  have hnan : IsNaN ((arg c.im c.re - last - Scalar.ofNat (k % 4) * Window.expectedCycles) *
      Scalar.invPi) ↔ IsNaN (arg c.im c.re) ∨ IsNaN last := by
    rw [hd₂.isNaN_mul_iff within_invPi (N := 3) (by norm_num) (by norm_num) (by norm_num),
      hd₁.isNaN_sub_iff (within_expected k) (N := 5) (by norm_num) (by norm_num) (by norm_num),
      hp.isNaN_sub_iff hl (N := 3) (by norm_num) (by norm_num) (by norm_num)]
    have hc : ¬ IsNaN (Scalar.ofNat (k % 4) * Window.expectedCycles : Float) := by
      rw [(within_mod_four k).isNaN_mul_iff within_expectedCycles (N := 4) (by norm_num)
        (by norm_num) (by norm_num)]
      have h3 : ((k % 4 : Nat) : ℚ) ≤ 3 := by exact_mod_cast (by omega : k % 4 ≤ 3)
      obtain ⟨q, hq, -⟩ := value_ofNat (n := k % 4) (N := 2) (by omega) (by norm_num)
        (by norm_num) (by norm_num; omega)
      exact not_or.mpr ⟨not_isNaN_of_value hq, not_isNaN_of_value value_expectedCycles⟩
    simp only [hc, not_isNaN_of_value value_invPi, or_false]
  have hd : Within 8 ((arg c.im c.re - last - Scalar.ofNat (k % 4) * Window.expectedCycles) *
      Scalar.invPi) :=
    (hd₂.mul within_invPi (N := 4) (by norm_num) (by norm_num) (by norm_num)).mono (by norm_num)
  have ha : @Phasor.arg Float (binary64With arg) c = arg c.im c.re := rfl
  simp only [Analysis.analyzeBin, halfTurns_binary64With, ha]
  rcases hd with hd | ⟨a, ha, hA⟩
  · -- NaN passes through the wrap and the doubling
    obtain ⟨r, hr, hrn⟩ := Phase.halfTurns_nan hd
    refine ⟨_, bind_eq_ok.mpr ⟨r, hr, rfl⟩, ?_, fun h => ?_⟩
    · exact ⟨fun _ => hnan.mp hd, fun _ => isNaN_mul_left hrn _⟩
    · exact absurd (isNaN_mul_left hrn _) h
  · -- the wrap and the doubling are exact
    obtain ⟨r, hr, hrv⟩ := Phase.halfTurns_value ha (hA.trans (by norm_num))
    have hmem := toIocMod_mem_Ioc two_pos (-1) a
    have ht : |toIocMod two_pos (-1) a| ≤ 1 := abs_le.mpr ⟨by linarith [hmem.1], by linarith [hmem.2]⟩
    have hr2 := value_mul_two hrv (ht.trans_lt (one_lt_pow₀ one_lt_two (by norm_num)))
    refine ⟨_, bind_eq_ok.mpr ⟨r, hr, rfl⟩, ?_, fun _ => ?_⟩
    · exact ⟨fun h => absurd h (not_isNaN_of_value hr2),
        fun h => absurd (hnan.mpr h) (not_isNaN_of_value ha)⟩
    · exact ⟨_, ⟨by linarith [hmem.1], by linarith [hmem.2]⟩, hr2⟩

/-- Analysis in binary64, with an angle function that gives NaN or values within 4 and last
phases of the same kind (the arguments it stored): the new last phases are the arguments and
bin `k`'s frequency is `k + d_k`, where `d_k` is NaN exactly when the argument or the last
phase is, and otherwise lies in `(-2, 2]`. -/
theorem analyze_deviation_binary64 (harg : ∀ y x, Within 4 (arg y x)) {last : Vector Float 513}
    (hl : ∀ k, Within 4 (last.get k)) (S : Vector (Phasor Float) 513) :
    letI : Scalar Float := binary64With arg
    ∃ d : Fin 513 → Float, Analysis.analyze last S = .ok (Vector.ofFn fun k => (S.get k).arg,
        Vector.ofFn fun k => ⟨(S.get k).norm, Scalar.ofNat k.val + d k⟩) ∧
      ∀ k, (IsNaN (d k) ↔ IsNaN (S.get k).arg ∨ IsNaN (last.get k)) ∧
        (¬ IsNaN (d k) → ∃ q ∈ Set.Ioc (-2 : ℚ) 2, value (d k) = some q) := by
  let : Scalar Float := binary64With arg
  choose d hd hd' using fun k : Fin 513 =>
    analyzeBin_deviation_binary64 arg harg k.val (hl k) (S.get k)
  exact ⟨d, Analysis.analyze_eq fun k => hd k, hd'⟩

/-- Frequency estimation, exactly and in binary64. Over the reals, against stored last phases
(below `2^60`), analysis keeps the arguments as the new last phases and reads bin `k` as
`k + d_k` with `d_k` the one deviation in `(-2, 2]` whose advance `(k + d_k) · π/2` is the
observed advance up to whole turns. In binary64, with an angle function giving NaN or values
within 4 and last phases of that kind, `d_k` is NaN exactly when the argument or the last
phase is, and otherwise lies in `(-2, 2]`. -/
theorem analyze_estimates_frequencies (harg : ∀ y x, Within 4 (arg y x)) :
    (∀ last : Vector ℝ 513, (∀ k, |last.get k| ≤ 2 ^ 60) → ∀ S : Vector (Phasor ℝ) 513,
      ∃ d : Fin 513 → ℝ, Analysis.analyze last S = .ok (Vector.ofFn fun k => (S.get k).arg,
          Vector.ofFn fun k => ⟨(S.get k).norm, k.val + d k⟩) ∧
        ∀ k d', (d' ∈ Set.Ioc (-2) 2 ∧ (((k.val + d') * (π / 2) : ℝ) : Real.Angle) =
          ((S.get k).arg - last.get k : ℝ)) ↔ d' = d k) ∧
    (letI : Scalar Float := binary64With arg
      ∀ last : Vector Float 513, (∀ k, Within 4 (last.get k)) →
      ∀ S : Vector (Phasor Float) 513,
      ∃ d : Fin 513 → Float, Analysis.analyze last S = .ok (Vector.ofFn fun k => (S.get k).arg,
          Vector.ofFn fun k => ⟨(S.get k).norm, Scalar.ofNat k.val + d k⟩) ∧
        ∀ k, (IsNaN (d k) ↔ IsNaN (S.get k).arg ∨ IsNaN (last.get k)) ∧
          (¬ IsNaN (d k) → ∃ q ∈ Set.Ioc (-2 : ℚ) 2, value (d k) = some q)) :=
  ⟨fun _ hl S => Analysis.analyze_deviation hl S,
    fun _ hl S => analyze_deviation_binary64 arg harg hl S⟩

/-- With a constant angle function, the binary64 deviations of a silent spectrum against
silent last phases are finite, in `(-2, 2]`. -/
theorem silent_deviations_in_range :
    letI : Scalar Float := binary64With fun _ _ => Scalar.ofInt 0
    ∃ d : Fin 513 → Float,
      Analysis.analyze (Vector.replicate 513 (Scalar.ofInt 0)) (Vector.replicate 513 Phasor.zero) =
        .ok (Vector.ofFn fun k => ((Vector.replicate 513 Phasor.zero).get k).arg,
          Vector.ofFn fun k => ⟨((Vector.replicate 513 Phasor.zero).get k).norm,
            Scalar.ofNat k.val + d k⟩) ∧
      ∀ k, ∃ q ∈ Set.Ioc (-2 : ℚ) 2, value (d k) = some q := by
  have hzero : Within 4 (Scalar.ofInt 0 : Float) := .of_value Phase.value_ofInt_zero (by norm_num)
  obtain ⟨d, h, hd⟩ := (analyze_estimates_frequencies _ fun _ _ => hzero).2
    (Vector.replicate 513 (Scalar.ofInt 0)) (fun _ => by simpa using hzero) _
  refine ⟨d, h, fun k => (hd k).2 fun hn => ?_⟩
  rcases (hd k).1.mp hn with h | h
  · exact not_isNaN_of_value Phase.value_ofInt_zero h
  · exact not_isNaN_of_value Phase.value_ofInt_zero (by simpa using h)

end Binary64

end PhaseVocoder
