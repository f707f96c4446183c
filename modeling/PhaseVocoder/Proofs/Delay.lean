import PhaseVocoder.Proofs.Fourier
import PhaseVocoder.Proofs.Estimation
import PhaseVocoder.Proofs.WindowGain

/-!
# Unity pitch over the reals (effect/pshifter.rs:139-186)

Read over the reals with the exact transform, the engine at unity is meant to be a pure delay of
one frame: sample `t` out is sample `t - 1024` in. It is one while the phases stay locked:
every bin's running synthesis phase equals its analysis phase up to whole turns (`Locked`). A
cycle keeps the lock (`cycle_locked`): analysis reads the advance of each sounding bin since
the last frame (`analyze_exact`), synthesis adds it to the running phase (`spectrum_exact`), so
synthesis rebuilds the new frame's own spectrum (`phases_locked`). The round trip and the
window then add `2/3 w_j²` times the frame into the accumulator (`overlapAdd_locked`), and the
four frames a quarter apart that cover each sample add their squared windows up to `3/2`
(`coverage_full`), so each published hop is the stream one frame late (`Locked.hop_eq`).

A bin that falls silent is the exception. Its magnitude is zero, so its synthesis frequency is
zero and its running phase stays where it was, while analysis resets its last phase to
`arg 0 = 0`. When it sounds again its phase is off by the argument it had before it fell
silent, unless that was zero. The delay therefore holds on the streams whose bins fall silent
only from phase zero over the cycles the run makes (`SilentFromPhaseZero`), and
`unity_output_is_delayed_input` proves it for every sequence of calls that hands over such a
stream from a fresh or reset effect. A lone impulse qualifies while every frame read holds it
(`silentFromPhaseZero_single`), since a frame with one sounding sample sounds in every bin; two
impulses more than a frame apart already break it, the second coming out shifted.

The stages are `PshifterState::run_cycle` (effect/pshifter.rs:153-185),
`SpectralAnalyzer::analyze_spectrum` (shift/analysis.rs:59-82) and
`SpectralResynthesizer::synthesize` (shift/synthesis.rs:46-90).
-/

namespace PhaseVocoder

open Real Phasor

namespace Analysis

/-- Over the reals, analysing bin `k` keeps the argument as the new last phase, and reads a
frequency whose advance over one hop, `f · π/2`, is the observed advance `arg c - last` up to
whole turns. -/
theorem analyzeBin_exact {k : ℕ} (hk : k < 513) {last : ℝ} (hl : |last| ≤ π) (c : Phasor ℝ) :
    ∃ f : ℝ, analyzeBin k last c = .ok (c.arg, ⟨c.norm, f⟩) ∧ |f| ≤ 520 ∧
      ((f * (π / 2) : ℝ) : Real.Angle) = ((c.arg - last : ℝ) : Real.Angle) := by
  have hl' : |last| ≤ 2 ^ 60 := hl.trans (Real.pi_le_four.trans (by norm_num))
  obtain ⟨d, ⟨hd₁, hd₂⟩, hbin, hadv⟩ := analyzeBin_deviation k hl' c
  refine ⟨k + d, hbin, ?_, hadv⟩
  have hk' : (k : ℝ) ≤ 512 := by exact_mod_cast Nat.le_of_lt_succ hk
  rw [abs_le]
  constructor <;> linarith [(Nat.cast_nonneg k : (0 : ℝ) ≤ k)]

/-- Over the reals, analysis against last phases within a half turn of zero always succeeds: the new
last phases are the arguments, and each bin's frequency advances by the observed phase
advance over one hop, up to whole turns. -/
theorem analyze_exact {last : Vector ℝ 513} (hl : ∀ k, |last.get k| ≤ π)
    (S : Vector (Phasor ℝ) 513) :
    ∃ f : Fin 513 → ℝ, analyze last S = .ok (Vector.ofFn fun k => (S.get k).arg,
        Vector.ofFn fun k => ⟨(S.get k).norm, f k⟩) ∧
      ∀ k, |f k| ≤ 520 ∧
        ((f k * (π / 2) : ℝ) : Real.Angle) = (((S.get k).arg - last.get k : ℝ) : Real.Angle) := by
  choose f hf using fun k : Fin 513 => analyzeBin_exact k.isLt (hl k) (S.get k)
  exact ⟨f, analyze_eq fun k => (hf k).1, fun k => (hf k).2⟩

end Analysis

namespace Synthesis

/-- Over the reals, synthesis from running phases within a turn of zero and frequencies of at most
`520` always succeeds: each new running phase is the old one advanced by the bin's frequency
over one hop, up to whole turns, and lies within one turn of zero. -/
theorem spectrum_exact {sum : Vector ℝ 513} {bins : BinSet ℝ} (hs : ∀ k, |sum.get k| ≤ 2 * π)
    (hb : ∀ k, |(bins.get k).freq| ≤ 520) :
    ∃ θ : Fin 513 → ℝ, spectrum sum bins = .ok (Vector.ofFn θ, mirror fun k =>
        if hk : k < 513 then Phasor.polar (bins.get ⟨k, hk⟩).magnitude (θ ⟨k, hk⟩)
        else Phasor.zero) ∧
      ∀ k, |θ k| ≤ 2 * π ∧ ((θ k : ℝ) : Real.Angle) =
        ((sum.get k + (bins.get k).freq * (π / 2) : ℝ) : Real.Angle) := by
  have hπ₁ := Real.pi_gt_three
  have hπ₂ := Real.pi_le_four
  have hw : ∀ k, ∃ θ : ℝ, Phase.radians (sum.get k + (bins.get k).freq * Window.expectedCycles) =
      .ok θ ∧ |θ| ≤ 2 * π ∧ ((θ : ℝ) : Real.Angle) =
        ((sum.get k + (bins.get k).freq * (π / 2) : ℝ) : Real.Angle) := by
    intro k
    have h₁ := abs_le.1 (hs k)
    have h₂ := abs_le.1 (hb k)
    have hp : |sum.get k + (bins.get k).freq * (π / 2)| ≤ 2 ^ 60 := by
      rw [abs_le]; constructor <;> nlinarith
    obtain ⟨m, hm, hθ⟩ := Phase.radians_exact hp
    refine ⟨_, by rw [Window.expectedCycles_eq]; exact hm, ?_, ?_⟩
    · exact hθ.le
    · exact Real.Angle.angle_eq_iff_two_pi_dvd_sub.mpr ⟨-m, by push_cast; ring⟩
  choose θ hθ using hw
  exact ⟨θ, spectrum_eq fun k => (hθ k).1, fun k => (hθ k).2⟩

end Synthesis

namespace BinSet

theorem scale_unity : (PitchRatio.unity.scale : ℝ) = 1 := by
  have h : (65536 : UInt32).toNat = 65536 := rfl
  simp only [PitchRatio.scale, PitchRatio.unity, h, Exact.ofNat_eq, Exact.numeral_one]
  norm_num

/-- Over the reals, a bin at unity keeps its magnitude, and its frequency while it sounds. -/
theorem remap_unity_exact (bins : BinSet ℝ) (k : Fin 513) :
    (bins.remap PitchRatio.unity).get k =
      ⟨(bins.get k).magnitude, if 0 < (bins.get k).magnitude then (bins.get k).freq else 0⟩ := by
  simp only [remap_unity, Exact.numeral_zero, zero_add, Exact.lt_eq, decide_eq_true_eq,
    scale_unity, mul_one]

end BinSet

namespace Engine

/-! ## The stream a frame late -/

/-- The stream `x` one frame late: place `v` holds sample `v - 1024`, silence before. -/
def delayed (x : ℕ → ℝ) (v : ℕ) : ℝ := if 1024 ≤ v then x (v - 1024) else 0

theorem frameAt_get (x : ℕ → ℝ) (n : ℕ) (j : Fin 1024) :
    (frameAt x n).get j = delayed x (256 * n + j) := by
  simp only [frameAt, Vector.get_ofFn, delayed, Exact.numeral_zero]

/-- Frame `n` of the stream `x` under the window. -/
noncomputable def windowed (x : ℕ → ℝ) (n : ℕ) : Vector (Phasor ℝ) 1024 :=
  Vector.ofFn fun j => ⟨delayed x (256 * n + j) * Window.exact j, 0⟩

/-- The spectrum of frame `n` of the stream `x`. -/
noncomputable def spectrumAt (x : ℕ → ℝ) (n : ℕ) : Vector (Phasor ℝ) 1024 :=
  Transform.exact.forward (windowed x n)

theorem frame_load_frameAt (x : ℕ → ℝ) (n : ℕ) (slot : Fin 4) :
    (Ring.load slot (frameAt x n)).frame Window.table = windowed x n := by
  simp only [Ring.frame_load, frameAt_get, Window.table_eq, Exact.numeral_zero, windowed]

theorem spectrumAt_silent {x : ℕ → ℝ} {n : ℕ} (h : ∀ j : Fin 1024, delayed x (256 * n + j) = 0)
    (k : Fin 1024) : (spectrumAt x n).get k = zero := by
  refine Transform.forward_zero (fun j => ?_) k
  simp only [windowed, Vector.get_ofFn, h, zero_mul, zero, Exact.numeral_zero]

theorem spectrumAt_zero (x : ℕ → ℝ) (k : Fin 1024) : (spectrumAt x 0).get k = zero :=
  spectrumAt_silent (fun j => if_neg (by omega)) k

theorem inverse_spectrumAt (x : ℕ → ℝ) (n : ℕ) (j : Fin 1024) :
    ((Transform.exact.inverse (spectrumAt x n)).get j).re =
      1024 * (delayed x (256 * n + j) * Window.exact j) := by
  have h := congrArg Complex.re (Transform.inverse_forward (windowed x n) j)
  simpa [spectrumAt, windowed] using h

/-- A spectrum whose bins up to 512 are those of frame `n`, mirrored, is the whole spectrum of
frame `n`: the frame is real. -/
theorem mirror_spectrumAt (x : ℕ → ℝ) (n : ℕ) {half : ℕ → Phasor ℝ}
    (h : ∀ k : Fin 1024, k.val < 513 → half k.val = (spectrumAt x n).get k) :
    Synthesis.mirror half = spectrumAt x n := by
  refine Vector.ext fun k hk => ?_
  simp only [Synthesis.mirror, Vector.getElem_ofFn]
  split
  · exact (h ⟨k, hk⟩ ‹_›).trans rfl
  · -- the upper bins are the conjugates of the lower ones
    rename_i hk'
    have hc := Transform.forward_conj (windowed x n) (fun j => by simp [windowed])
      ⟨k, hk⟩ (by simp only; omega)
    rw [h ⟨1024 - k, by omega⟩ (by simp only; omega)]
    apply toComplex_injective
    rw [toComplex_conj]
    exact (congrArg (starRingEnd ℂ) hc).trans (Complex.conj_conj _)

/-! ## Overlap-adding at unity -/

/-- The squared windows of cycles `1` to `n` at stream place `v`: cycle `m + 1` overlap-adds its
frame over places `256 (m + 1)` to `256 (m + 1) + 1023`. -/
noncomputable def coverage (n v : ℕ) : ℝ :=
  ∑ m ∈ Finset.range n,
    if 256 * (m + 1) ≤ v ∧ v < 256 * (m + 1) + 1024 then Window.exact (v - 256 * (m + 1)) ^ 2
    else 0

theorem coverage_succ {n v : ℕ} (h₁ : 256 * (n + 1) ≤ v) (h₂ : v < 256 * (n + 1) + 1024) :
    coverage (n + 1) v = coverage n v + Window.exact (v - 256 * (n + 1)) ^ 2 := by
  rw [coverage, Finset.sum_range_succ, if_pos ⟨h₁, h₂⟩, coverage]

theorem coverage_of_le {n v : ℕ} (h : 256 * n + 1024 ≤ v) : coverage n v = 0 := by
  refine Finset.sum_eq_zero fun m hm => if_neg ?_
  have := Finset.mem_range.1 hm
  omega

/-- The places of hop `n + 4` are covered by the four cycles `n + 1` to `n + 4`, and their
squared windows add up to `3/2`. -/
theorem coverage_full (n : ℕ) {i : ℕ} (hi : i < 256) :
    coverage (n + 4) (256 * (n + 4) + i) = 3 / 2 := by
  rw [coverage, Finset.sum_range_add, Finset.sum_eq_zero (fun m hm => if_neg ?_), zero_add]
  · calc ∑ l ∈ Finset.range 4, (if 256 * (n + l + 1) ≤ 256 * (n + 4) + i ∧
            256 * (n + 4) + i < 256 * (n + l + 1) + 1024
            then Window.exact (256 * (n + 4) + i - 256 * (n + l + 1)) ^ 2 else 0)
          = ∑ l ∈ Finset.range 4, Window.exact (i + 256 * (4 - 1 - l)) ^ 2 := by
            refine Finset.sum_congr rfl fun l hl => ?_
            have := Finset.mem_range.1 hl
            rw [if_pos (by omega), show 256 * (n + 4) + i - 256 * (n + l + 1) =
              i + 256 * (4 - 1 - l) by omega]
        _ = ∑ l ∈ Finset.range 4, Window.exact (i + 256 * l) ^ 2 :=
            Finset.sum_range_reflect (fun l => Window.exact (i + 256 * l) ^ 2) 4
        _ = 3 / 2 := by
            simp only [Window.exact_add]
            exact Window.sum_sq_sin_sq _
  · have := Finset.mem_range.1 hm
    omega

variable {x : ℕ → ℝ}

/-- What the engine holds after `n` cycles at unity pitch over the reals. Each bin's last
phase is its argument in frame `n`; its running phase lies within a turn of zero and equals
the last phase up to whole turns. The accumulator holds, at the slot of each of the next 1024
stream places, two thirds of the delayed sample there times the squared windows of the
cycles so far that cover it; the hop the last cycle published is such a sum too. -/
structure Locked (x : ℕ → ℝ) (n : ℕ) (e : Engine ℝ) : Prop where
  last : ∀ (k : Fin 1024) (hk : k.val < 513),
    e.lastPhase.get ⟨k.val, hk⟩ = ((spectrumAt x n).get k).arg
  sum_bound : ∀ k, |e.sumPhase.get k| ≤ 2 * π
  sum_angle : ∀ k,
    ((e.sumPhase.get k : ℝ) : Real.Angle) = ((e.lastPhase.get k : ℝ) : Real.Angle)
  accum : ∀ (j : Fin 1024) (v : ℕ), 256 * n + 256 ≤ v → v < 256 * n + 1280 →
    j.val = (v + 768) % 1024 → e.accum.get j = 2 / 3 * delayed x v * coverage n v
  hop : ∀ i < 256, e.hop i = 2 / 3 * delayed x (256 * n + i) * coverage n (256 * n + i)

theorem Locked.last_get {e : Engine ℝ} {n : ℕ} (hL : Locked x n e) (k : Fin 513) :
    e.lastPhase.get k = ((spectrumAt x n).get (Fin.castLE (by decide) k)).arg :=
  hL.last (Fin.castLE (by decide) k) k.isLt

theorem locked_fresh : Locked x 0 fresh := by
  refine ⟨fun k hk => ?_, fun k => ?_, fun k => rfl, fun j v _ _ _ => ?_, fun i _ => ?_⟩
  · simp [fresh, spectrumAt_zero, arg_eq]
  · simp [fresh, Real.pi_pos.le]
  · simp [fresh, coverage]
  · simp [hop_fresh, coverage]

theorem pos_atCycle {e : Engine ℝ} {n : ℕ} (hslot : e.ring.slot.val = (n + 3) % 4)
    (r : PitchRatio) : (e.atCycle x n r).ring.pos = 256 * (n % 4) := by
  simp only [atCycle, Ring.pos, Ring.load, Ring.nextSlot, Fin.val_add, hslot]
  omega

/-- Overlap-adding the round trip of frame `n + 1` at its ring position onto the accumulator of
a locked engine adds that frame's squared window to each place it covers. -/
theorem overlapAdd_locked {e : Engine ℝ} {n : ℕ} (hL : Locked x n e) {v : ℕ}
    (h₁ : 256 * (n + 1) ≤ v) (h₂ : v < 256 * (n + 1) + 1024) (j : Fin 1024)
    (hj : j.val = (v + 768) % 1024) :
    (Synthesis.overlapAdd e.accum (Transform.exact.inverse (spectrumAt x (n + 1)))
      (256 * (n % 4))).get j = 2 / 3 * delayed x v * coverage (n + 1) v := by
  -- the frame place that lands on the slot of `v` is `v - 256 (n + 1)`
  have hjj : (j.val + 1024 - 256 * (n % 4) % 1024) % 1024 = v - 256 * (n + 1) := by omega
  simp only [Synthesis.overlapAdd, Vector.get_ofFn, hjj]
  rw [inverse_spectrumAt, Window.table_eq, Window.outputScale_eq,
    hL.accum j v (by omega) (by omega) hj, coverage_succ h₁ h₂,
    show 256 * (n + 1) + (v - 256 * (n + 1)) = v by omega]
  ring

/-- Over the first `N` cycles, bins fall silent only from phase zero: whenever bin `k ≤ 512` of
frame `n + 1 ≤ N` of the stream `x` is silent, its argument in frame `n` is zero. -/
def SilentFromPhaseZero (x : ℕ → ℝ) (N : ℕ) : Prop :=
  ∀ n < N, ∀ k : Fin 1024, k.val < 513 → ((spectrumAt x (n + 1)).get k).norm = 0 →
    ((spectrumAt x n).get k).arg = 0

/-- The spectral stages of a locked cycle at unity: analysis reads each bin's advance, and
synthesis advances the running phase by it, so each running phase is the bin's argument in the
new frame up to whole turns, and synthesis rebuilds the new frame's spectrum. A bin that falls
silent keeps its running phase, which its silence from phase zero makes right. -/
theorem phases_locked {N : ℕ} (hz : SilentFromPhaseZero x N) {e : Engine ℝ} {n : ℕ} (hn : n < N)
    (hL : Locked x n e) :
    ∃ (B : BinSet ℝ) (θ : Fin 513 → ℝ),
      Analysis.analyze e.lastPhase (Vector.ofFn fun k : Fin 513 =>
          (spectrumAt x (n + 1)).get (Fin.castLE (by decide) k)) =
        .ok (Vector.ofFn fun k : Fin 513 =>
          ((spectrumAt x (n + 1)).get (Fin.castLE (by decide) k)).arg, B) ∧
      Synthesis.spectrum e.sumPhase (B.remap PitchRatio.unity) =
        .ok (Vector.ofFn θ, spectrumAt x (n + 1)) ∧
      ∀ k, |θ k| ≤ 2 * π ∧ ((θ k : ℝ) : Real.Angle) =
        (((spectrumAt x (n + 1)).get (Fin.castLE (by decide) k)).arg : ℝ) := by
  have hl : ∀ k, |e.lastPhase.get k| ≤ π := fun k => by
    rw [hL.last_get k]; exact abs_arg_le _
  obtain ⟨f, ha, hf⟩ := Analysis.analyze_exact hl (Vector.ofFn fun k : Fin 513 =>
    (spectrumAt x (n + 1)).get (Fin.castLE (by decide) k))
  simp only [Vector.get_ofFn] at ha hf
  set B : BinSet ℝ := Vector.ofFn fun k : Fin 513 =>
    ⟨((spectrumAt x (n + 1)).get (Fin.castLE (by decide) k)).norm, f k⟩ with hB
  have hR := BinSet.remap_unity_exact B
  simp only [hB, Vector.get_ofFn] at hR
  have hfreq : ∀ k, |((B.remap PitchRatio.unity).get k).freq| ≤ 520 := fun k => by
    rw [hR]
    split
    · exact (hf k).1
    · simp
  obtain ⟨θ, hs, hθ⟩ := Synthesis.spectrum_exact hL.sum_bound hfreq
  -- each running phase is the argument in frame `n + 1`, up to whole turns
  have hlock : ∀ k : Fin 513, ((θ k : ℝ) : Real.Angle) =
      (((spectrumAt x (n + 1)).get (Fin.castLE (by decide) k)).arg : ℝ) := by
    intro k
    have hθk := (hθ k).2
    rw [hR] at hθk
    by_cases hp : 0 < ((spectrumAt x (n + 1)).get (Fin.castLE (by decide) k)).norm
    · case pos =>
      rw [if_pos hp, Real.Angle.coe_add, (hf k).2, hL.sum_angle k, Real.Angle.coe_sub] at hθk
      rw [hθk]
      abel
    · case neg =>
      have h0 : ((spectrumAt x (n + 1)).get (Fin.castLE (by decide) k)).norm = 0 :=
        le_antisymm (not_lt.1 hp) (by rw [norm_eq]; exact norm_nonneg _)
      rw [if_neg hp, zero_mul, add_zero, hL.sum_angle k, hL.last_get k, hz n hn _ k.isLt h0] at hθk
      rw [hθk, eq_zero_of_norm _ h0]
      simp [arg_eq]
  refine ⟨B, θ, ha, ?_, fun k => ⟨(hθ k).1, hlock k⟩⟩
  rw [hs, mirror_spectrumAt x (n + 1) fun k hk => ?_]
  rw [dif_pos hk, hR]
  exact polar_norm_of_angle _ (hlock ⟨k.val, hk⟩)

theorem arg_spectrumAt_of_silent {n : ℕ} (hf : ∀ j : Fin 1024, delayed x (256 * n + j) = 0)
    (k : Fin 1024) : ((spectrumAt x n).get k).arg = 0 := by
  rw [spectrumAt_silent hf k]
  simp [arg_eq]

theorem silentFromPhaseZero_of_silent (h : ∀ t, x t = 0) (N : ℕ) : SilentFromPhaseZero x N :=
  fun n _ k _ _ => arg_spectrumAt_of_silent (fun j => by simp only [delayed, h, ite_self]) k

theorem delayed_eq_zero_of_ne {p v : ℕ} (hx : ∀ t, t ≠ p → x t = 0) (hv : v ≠ p + 1024) :
    delayed x v = 0 := by
  unfold delayed
  split_ifs
  · exact hx _ (by omega)
  · rfl

/-- A frame holding one sample of the stream, at place `j₀`, sounds in every bin with that
sample's size under the window. -/
theorem norm_spectrumAt_single {n : ℕ} {j₀ : Fin 1024}
    (h : ∀ j : Fin 1024, j ≠ j₀ → delayed x (256 * n + j) = 0) (k : Fin 1024) :
    ((spectrumAt x n).get k).norm = |delayed x (256 * n + j₀)| * Window.exact j₀ := by
  have hv : ∀ j, j ≠ j₀ → (windowed x n).get j = zero := fun j hj => by
    simp [windowed, h j hj, zero]
  have hj₀ : ((windowed x n).get j₀).toComplex = (delayed x (256 * n + j₀) * Window.exact j₀ : ℝ) := by
    simp only [windowed, Vector.get_ofFn]
    rfl
  rw [norm_eq, spectrumAt, Transform.norm_forward_single hv, hj₀, Complex.norm_real,
    Real.norm_eq_abs, abs_mul, abs_of_pos (Window.exact_pos j₀.isLt)]

/-- A stream with a single sounding sample `p` falls silent only from phase zero over the
cycles whose frames all reach that sample: the first `N`, for `256 N ≤ p + 1024`. -/
theorem silentFromPhaseZero_single {p N : ℕ} (hx : ∀ t, t ≠ p → x t = 0) (hp : x p ≠ 0)
    (hN : 256 * N ≤ p + 1024) : SilentFromPhaseZero x N := by
  intro n hn k _ h0
  by_cases hin : p < 256 * (n + 1)
  · -- frame `n + 1` holds the sample, so none of its bins is silent
    exfalso
    let j₀ : Fin 1024 := ⟨p + 1024 - 256 * (n + 1), by omega⟩
    have hothers : ∀ j : Fin 1024, j ≠ j₀ → delayed x (256 * (n + 1) + j) = 0 := fun j hj =>
      delayed_eq_zero_of_ne hx fun heq => hj (Fin.ext (by simp only [j₀]; omega))
    have hd : delayed x (256 * (n + 1) + j₀) = x p := by
      rw [delayed, if_pos (by simp only [j₀]; omega)]
      rw [show 256 * (n + 1) + j₀.val - 1024 = p by simp only [j₀]; omega]
    have hs := norm_spectrumAt_single hothers k
    rw [h0, hd] at hs
    exact absurd hs.symm (mul_ne_zero (abs_ne_zero.mpr hp) (Window.exact_pos j₀.isLt).ne')
  · -- frame `n` lies before the sample
    exact arg_spectrumAt_of_silent (fun j => delayed_eq_zero_of_ne hx (by omega)) k

/-- A locked cycle at unity keeps the engine locked, one cycle on. -/
theorem cycle_locked {N : ℕ} (hz : SilentFromPhaseZero x N) {e : Engine ℝ} {n : ℕ} (hn : n < N)
    (hL : Locked x n e) (hslot : e.ring.slot.val = (n + 3) % 4) :
    ∃ e', (e.atCycle x n PitchRatio.unity).cycle Transform.exact = .ok e' ∧
      Locked x (n + 1) e' := by
  have hpos := pos_atCycle (x := x) hslot PitchRatio.unity
  have hframe : Transform.exact.forward
      ((e.atCycle x n PitchRatio.unity).ring.frame Window.table) = spectrumAt x (n + 1) := by
    rw [atCycle, frame_load_frameAt]; rfl
  obtain ⟨B, θ, ha, hs, hθ⟩ := phases_locked hz hn hL
  have ha' : Analysis.analyze (e.atCycle x n PitchRatio.unity).lastPhase (Vector.ofFn
      fun k : Fin 513 => (Transform.exact.forward ((e.atCycle x n PitchRatio.unity).ring.frame
        Window.table)).get (Fin.castLE (by decide) k)) = .ok (Vector.ofFn fun k : Fin 513 =>
          ((spectrumAt x (n + 1)).get (Fin.castLE (by decide) k)).arg, B) := by
    rw [hframe, atCycle_lastPhase]; exact ha
  have hs' : Synthesis.spectrum (e.atCycle x n PitchRatio.unity).sumPhase
      (B.remap (e.atCycle x n PitchRatio.unity).ratio) =
        .ok (Vector.ofFn θ, spectrumAt x (n + 1)) := by
    rw [atCycle_sumPhase, atCycle_ratio]; exact hs
  obtain ⟨e', hc, hlast, hsum, -, -, -, hhop, hacc⟩ := cycle_eq ha' hs'
  simp only [atCycle] at hpos hhop hacc
  simp only [hpos] at hhop hacc
  refine ⟨e', hc,
    ⟨fun k hk => ?_, fun k => ?_, fun k => ?_, fun j v h₁ h₂ hj => ?_, fun i hi => ?_⟩⟩
  · rw [hlast, Vector.get_ofFn]; rfl
  · rw [hsum, Vector.get_ofFn]; exact (hθ k).1
  · rw [hsum, hlast, Vector.get_ofFn, Vector.get_ofFn]; exact (hθ k).2
  · rw [hacc j]
    by_cases hv : v < 256 * (n + 1) + 1024
    · -- a place the new frame covers, outside the published slot
      rw [if_neg (by omega)]
      exact overlapAdd_locked hL (by omega) hv j hj
    · -- a place past the new frame, whose slot was just published and cleared
      rw [if_pos (by omega), coverage_of_le (by omega), mul_zero, Exact.numeral_zero]
  · rw [hhop i hi]
    refine overlapAdd_locked hL (v := 256 * (n + 1) + i) (by omega) (by omega) _ ?_
    show (256 * (n % 4) + i) % 1024 = (256 * (n + 1) + i + 768) % 1024
    omega

/-- Every replayed cycle at unity, up to cycle `N`, on a stream whose bins fall silent only from
phase zero over those cycles succeeds, and leaves the engine locked. -/
theorem replay_locked {N : ℕ} (hz : SilentFromPhaseZero x N) :
    ∀ n ≤ N, ∃ e out, replay Transform.exact x (fun _ => PitchRatio.unity) n = .ok (e, out) ∧
      Locked x n e
  | 0, _ => ⟨fresh, [], rfl, locked_fresh⟩
  | n + 1, hn => by
    obtain ⟨e, out, hr, hL⟩ := replay_locked hz n (by omega)
    obtain ⟨-, hslot, -, -⟩ := replay_ring hr
    obtain ⟨e', hc, hL'⟩ := cycle_locked hz (by omega) hL hslot
    refine ⟨e', out ++ (List.range 256).map e.hop, ?_, hL'⟩
    rw [replay_succ, hr]
    simp only [bind, Except.bind, hc, Except.map]

/-- Hop `n` of a locked engine hands back the stream one frame late: from hop 4 on, the four
frames covering each place add up to exactly the sample there, and before, the delayed
stream is silent. -/
theorem Locked.hop_eq {e : Engine ℝ} {n : ℕ} (hL : Locked x n e) {i : ℕ} (hi : i < 256) :
    e.hop i = delayed x (256 * n + i) := by
  rw [hL.hop i hi]
  by_cases hn : 4 ≤ n
  · obtain ⟨m, rfl⟩ : ∃ m, n = m + 4 := ⟨n - 4, by omega⟩
    rw [coverage_full m hi]
    ring
  · simp only [delayed, if_neg (by omega : ¬1024 ≤ 256 * n + i), mul_zero, zero_mul]

end Engine

namespace Shifter

theorem ratioAt_of_unity {σ : Type} {zs : List (PitchRatio × σ)}
    (hρ : ∀ z ∈ zs, z.1 = PitchRatio.unity) : Engine.ratioAt zs = fun _ => PitchRatio.unity := by
  funext n
  unfold Engine.ratioAt
  rcases h : zs[256 * n - 1]? with _ | z
  · rfl
  · exact hρ z (List.mem_of_getElem? h)

/-- At unity pitch over the reals, calls from a fresh or reset effect whose stream falls silent
in a bin only from phase zero over the cycles it runs all succeed, and their mono output is the
stream one frame late: silent for the first 1024 samples, then sample `t` out is sample
`t - 1024` in. -/
theorem unity_output_is_delayed_input (s : Shifter ℝ ℝ) (cs : List (Call ℝ))
    (hs : s.engine = Engine.fresh) (hw : ∀ c ∈ cs, c.WellFormed)
    (hρ : ∀ z ∈ Call.stream PitchRatio.unity cs, z.1 = PitchRatio.unity)
    (hz : Engine.SilentFromPhaseZero (Engine.inputAt (Call.stream PitchRatio.unity cs))
      ((Call.stream PitchRatio.unity cs).length / 256)) :
    ∃ s' ys, s.runCalls Transform.exact cs = .ok (s', ys) ∧
      ys.length = (Call.stream PitchRatio.unity cs).length ∧
      ∀ t (ht : t < ys.length), ys[t] = if 1024 ≤ t then
        Engine.inputAt (Call.stream PitchRatio.unity cs) (t - 1024) else 0 := by
  have hunity := ratioAt_of_unity hρ
  have hrep := Engine.replay_locked hz
  have hsch := runCalls_schedule Transform.exact hs hw
  rw [hunity] at hsch
  obtain ⟨e, out, hr, -⟩ := hrep _ le_rfl
  rw [hr] at hsch
  rcases hx : s.runCalls Transform.exact cs with f | ⟨s', ys⟩
  · rw [hx] at hsch; cases hsch
  have hlen : ys.length = (Call.stream PitchRatio.unity cs).length := by
    rw [hx] at hsch
    simp only [Except.map, Except.ok.injEq, Prod.mk.injEq] at hsch
    rw [hsch.2.2.2.2.2, List.length_map, List.length_append, List.length_map,
      List.length_range, (Engine.replay_ring hr).2.2.1]
    omega
  refine ⟨s', ys, rfl, hlen, fun t ht => ?_⟩
  obtain ⟨⟨e', out', hr', hv⟩, -⟩ := runCalls_output Transform.exact hs hw hx t ht
  rw [hunity] at hr'
  obtain ⟨e'', out'', hr'', hL⟩ := hrep (t / 256) (Nat.div_le_div_right (hlen ▸ ht.le))
  rw [hr'] at hr''
  cases hr''
  rw [hv, hL.hop_eq (Nat.mod_lt t (by decide)), Nat.div_add_mod]
  rfl

/-- An impulse at sample 100 in a run of 1125 samples at unity: four cycles run, every frame
they read holds the impulse, and it comes out one frame late, at sample 1124. -/
theorem unity_impulse_comes_out_a_frame_late :
    ∃ s' ys, (fresh : Shifter ℝ ℝ).runCalls Transform.exact
        [.mono (Array.ofFn fun i : Fin 1125 => if i.val = 100 then (1 : ℝ) else 0)] =
          .ok (s', ys) ∧
      ys = List.ofFn fun t : Fin 1125 => if t.val = 1124 then 1 else 0 := by
  set xs : Array ℝ := Array.ofFn fun i : Fin 1125 => if i.val = 100 then 1 else 0
  have hin : ∀ t, Engine.inputAt (Call.stream PitchRatio.unity [.mono xs]) t =
      if t = 100 then (1 : ℝ) else 0 := by
    intro t
    simp only [Engine.inputAt, Call.stream_mono, List.getElem?_map, Array.getElem?_toList, xs,
      Array.getElem?_ofFn]
    split_ifs <;> simp_all [Widening.widen]
  have hlen : (Call.stream PitchRatio.unity [.mono xs]).length = 1125 := by
    simp only [Call.length_stream_mono, xs, Array.size_ofFn]
  obtain ⟨s', ys, h, hl, hy⟩ := unity_output_is_delayed_input fresh [.mono xs] rfl
    (by simp [Call.WellFormed]) (by simp [Call.stream_mono])
    (by
      rw [hlen]
      refine Engine.silentFromPhaseZero_single (p := 100) (fun t ht => ?_) ?_ (by norm_num)
      · rw [hin, if_neg ht]
      · rw [hin, if_pos rfl]
        exact one_ne_zero)
  refine ⟨s', ys, h, List.ext_getElem (by rw [hl, hlen, List.length_ofFn]) fun t h₁ h₂ => ?_⟩
  have ht : t < 1125 := by rwa [List.length_ofFn] at h₂
  rw [hy t h₁, List.getElem_ofFn, hin]
  by_cases h1124 : t = 1124
  · simp [h1124]
  · simp only [h1124, if_false]
    split_ifs <;> first | rfl | omega

end Shifter

end PhaseVocoder
