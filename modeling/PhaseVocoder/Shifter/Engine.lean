import PhaseVocoder.Frame.Ring
import PhaseVocoder.Spectrum.Analysis
import PhaseVocoder.Spectrum.Remap
import PhaseVocoder.Spectrum.Synthesis
import PhaseVocoder.Spectrum.Transform

/-!
# The streaming pitch-shift engine (effect/pshifter.rs:139-186)

The engine carries a stream through the sample ring. Samples enter the current hop and the
ring hands back what that hop slot held. Each time a hop is complete, one spectral cycle runs
on the last 1024 samples:

1. the windowed frame is transformed and analysed into magnitudes and true frequencies;
2. the bins move to their places under the pitch ratio;
3. the moved bins are turned back into a spectrum with running phases, inverse transformed,
   windowed and overlap-added into the accumulator;
4. the 256 accumulator samples at the current slot are complete: they are stored into the
   ring slot, to be handed back as output over the next hop, and cleared.

An output sample therefore leaves the engine 1024 samples after the input sample at the same
place in the stream.
-/

namespace PhaseVocoder

/-- The state of a stream: the ring, the analysis and synthesis phases, the overlap-add
accumulator and the pitch ratio (the streaming part of `PshifterState`, effect/pshifter.rs:32-41;
its scratch buffers are values passed between the stages). -/
structure Engine (α : Type) where
  ring : Ring α
  lastPhase : Vector α 513
  sumPhase : Vector α 513
  accum : Vector α 1024
  ratio : PitchRatio

namespace Engine

variable {α : Type} [Scalar α]

def fresh : Engine α :=
  ⟨Ring.fresh, Vector.replicate 513 0, Vector.replicate 513 0, Vector.replicate 1024 0,
    PitchRatio.unity⟩

/-- Each part reset in place: the ring, the analysis phases, the synthesis phases and the
accumulator, and the ratio back to unity. -/
def reset (e : Engine α) : Engine α :=
  { e with
    ring := e.ring.reset
    lastPhase := Vector.replicate 513 0
    sumPhase := Vector.replicate 513 0
    accum := Vector.replicate 1024 0
    ratio := PitchRatio.unity }

/-- One spectral cycle on the frame ending at the hop just completed (`run_cycle`,
effect/pshifter.rs:171-186). -/
def cycle (T : Transform α) (e : Engine α) : Except Fault (Engine α) := do
  let spectrum := T.forward (e.ring.frame Window.table)
  let (last, bins) ← Analysis.analyze e.lastPhase (Vector.ofFn fun k => spectrum.get (Fin.castLE (by decide) k))
  let moved := bins.remap e.ratio
  let (sum, full) ← Synthesis.spectrum e.sumPhase moved
  let accum := Synthesis.overlapAdd e.accum (T.inverse full) e.ring.pos
  let p := e.ring.pos
  let hop := Array.ofFn (n := 256) fun i => accum.get ⟨(p + i.val) % 1024, Nat.mod_lt _ (by decide)⟩
  let ring ← e.ring.storeHop hop
  let cleared := Vector.ofFn fun (j : Fin 1024) => if p ≤ j.val ∧ j.val < p + 256 then 0 else accum.get j
  pure ⟨ring, last, sum, cleared, e.ratio⟩

/-- Feeds samples through the ring, one hop's room at a time, running a cycle after every
completed hop; returns the output samples in order. -/
def feed {σ : Type} [Widening σ α] (T : Transform α) (e : Engine α) (out : Array σ) :
    List σ → Except Fault (Engine α × Array σ)
  | [] => .ok (e, out)
  | x :: xs => do
    let n := e.ring.room (xs.length + 1)
    let (ring, chunkOut, done) ← e.ring.ingest ((x :: xs).take n).toArray
    let e' := { e with ring }
    let e'' ← if done then e'.cycle T else pure e'
    feed T e'' (out ++ chunkOut) ((x :: xs).drop n)
termination_by l => l.length
decreasing_by
  have := e.ring.fill.isLt
  simp only [List.length_drop, List.length_cons]
  simp only [Ring.room]
  omega

/-- Runs one block of samples through the engine. -/
def shiftBlock {σ : Type} [Widening σ α] (T : Transform α) (e : Engine α) (input : Array σ) :
    Except Fault (Engine α × Array σ) :=
  e.feed T #[] input.toList

end Engine

end PhaseVocoder
