import PhaseVocoder.Shifter.Effect
import PhaseVocoder.Error

/-!
# Rendering a clip: `render` (lib.rs:65-130)

`render` shifts a whole clip offline, as the effect would in a mixer: a fresh shifter with
the tuning, unit input gain and one output line, fed the clip and then 1024 samples of
silence in blocks of `block` samples, each block mixed into a silent line. The first 1024
output samples, the engine's latency, are dropped, so the result is as long as the clip and
aligned with it.

The block size must lie in `[1, 1024]` (checked first), then the tuning's ranges.
-/

namespace PhaseVocoder

variable {σ α : Type} [SampleArith σ] [Scalar α] [Widening σ α]

def latency : Nat := 1024

def blockAt (input : Array σ) (pos todo : Nat) : Array σ :=
  Array.ofFn (n := todo) fun i => input.getD (pos + i.val) 0

/-- Processes the block at `pos` and appends its output line. -/
def renderStep (T : Transform α) (input : Array σ) (total block : Nat)
    (acc : Except Fault (Shifter σ α × Array σ)) (i : Nat) : Except Fault (Shifter σ α × Array σ) := do
  let (s, out) ← acc
  let pos := i * block
  let todo := min block (total - pos)
  let (s, lines) ← s.process T todo (some (blockAt input pos todo)) #[Array.replicate 1024 0]
  pure (s, out ++ (lines.getD 0 #[]).extract 0 todo)

/-- The clip shifted by the tuning, processed in blocks of `block` samples (lib.rs:81-130). -/
def render (T : Transform α) (input : Array σ) (t : Tuning) (block : Nat) :
    Except Failure (Array σ) := do
  if block = 0 ∨ block > 1024 then throw (.error (.blockSize block))
  Failure.ofError t.validate
  let s ← Failure.ofFault ((Shifter.fresh (σ := σ) (α := α)).deviceUpdate.update 1 (.tuning t)
    (Layout.firstChannels 1))
  let total := input.size + latency
  let steps := (total + block - 1) / block
  let (_, out) ← Failure.ofFault
    ((List.range steps).foldl (renderStep T input total block) (.ok (s, #[])))
  pure (out.extract latency out.size)

end PhaseVocoder
