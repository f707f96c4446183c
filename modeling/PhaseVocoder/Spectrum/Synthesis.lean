import PhaseVocoder.Spectrum.Bin
import PhaseVocoder.Spectrum.Phase
import PhaseVocoder.Frame.Window

/-!
# Synthesis: accumulated phases and the full spectrum (shift/synthesis.rs:12-91)

Synthesis keeps one running phase per bin. For a synthesis bin set it advances bin `k`'s
phase by `freq_k · 2π/4` (the advance over one hop of a sinusoid at that frequency), wraps it
into `(-π, π]`, and sets spectrum bin `k` to the phasor of the bin's magnitude at that phase.
Bins 513 to 1023 are the conjugates of bins 511 down to 1, so the inverse transform is real.

`overlapAdd` adds a windowed, scaled inverse-transformed frame into a 1024-sample
accumulator, starting at the ring position so that frame sample `j` lands on the accumulator
slot of ring entry `pos + j`.
-/

namespace PhaseVocoder.Synthesis

variable {α : Type} [Scalar α]

/-- Advances the running phases by one hop of each bin's frequency and builds the
conjugate-symmetric 1024-bin spectrum (`build_spectrum`, shift/synthesis.rs:65-82). -/
def spectrum (sum : Vector α 513) (bins : BinSet α) :
    Except Fault (Vector α 513 × Vector (Phasor α) 1024) := do
  let mut phases := sum
  let mut half : Array (Phasor α) := Array.mkEmpty 513
  for k in List.finRange 513 do
    let b := bins.get k
    let p ← Phase.radians (sum.get k + b.freq * Window.expectedCycles)
    phases := phases.set k.val p k.isLt
    half := half.push (Phasor.polar b.magnitude p)
  let full := Vector.ofFn fun (k : Fin 1024) =>
    if k.val < 513 then half.getD k.val Phasor.zero
    else (half.getD (1024 - k.val) Phasor.zero).conj
  pure (phases, full)

/-- Adds `w_j · re(frame_j) · outputScale` into accumulator slot `(pos + j) mod 1024`
(`overlap_add`, shift/synthesis.rs:84-91). -/
def overlapAdd (accum : Vector α 1024) (frame : Vector (Phasor α) 1024) (pos : Nat) :
    Vector α 1024 :=
  let w : Vector α 1024 := Window.table
  Vector.ofFn fun (i : Fin 1024) =>
    let j : Fin 1024 := ⟨(i.val + 1024 - pos % 1024) % 1024, Nat.mod_lt _ (by decide)⟩
    accum.get i + w.get j * (frame.get j).re * Window.outputScale

end PhaseVocoder.Synthesis
