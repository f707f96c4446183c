import PhaseVocoder.Spectrum.Bin
import PhaseVocoder.Spectrum.Phase
import PhaseVocoder.Frame.Window

/-!
# Analysis: magnitudes and true frequencies (shift/analysis.rs:14-83)

Between two frames one hop apart, bin `k` of a steady sinusoid advances in phase by
`k · 2π/4` (four hops per frame) plus a deviation proportional to how far its frequency lies
from the bin centre. Analysis keeps each bin's last phase; for a new spectrum it takes the
observed advance `arg X_k - last_k`, removes the expected advance (which depends on `k mod 4`
only, whole turns aside), wraps the rest into `(-1, 1]` half turns and reads the frequency
as `k + 2 · wrapped`. The magnitude is `|X_k|`, and `last_k` becomes `arg X_k`.
-/

namespace PhaseVocoder.Analysis

variable {α : Type} [Scalar α]

/-- The analysis of one bin: the new last phase and the bin. -/
def analyzeBin (k : Nat) (last : α) (c : Phasor α) : Except Fault (α × Bin α) := do
  let phase := c.arg
  let delta := (phase - last) - Scalar.ofNat (k % 4) * Window.expectedCycles
  let deviation := (← Phase.halfTurns (delta * Scalar.invPi)) * 2
  pure (phase, ⟨c.norm, Scalar.ofNat k + deviation⟩)

/-- Analyses a 513-bin spectrum against the last phases, bin by bin from bin 0; returns the new last
phases and the bins (`analyze_spectrum`, shift/analysis.rs:59-82). -/
def analyze (last : Vector α 513) (spectrum : Vector (Phasor α) 513) :
    Except Fault (Vector α 513 × BinSet α) := do
  let mut phases := last
  let mut bins : BinSet α := BinSet.zero
  for h : k in [0:513] do
    let (p, b) ← analyzeBin k (last.get ⟨k, h.2.1⟩) (spectrum.get ⟨k, h.2.1⟩)
    phases := phases.set k p h.2.1
    bins := bins.set k b h.2.1
  pure (phases, bins)

end PhaseVocoder.Analysis
