import PhaseVocoder.Fault
import PhaseVocoder.Signal.Sample

/-!
# Gain-ramped mixing: `mix_samples` (mixer.rs:109-154)

`mix` adds a block of input samples into the window `[outPos, outPos + L)` of each output
line (at most 16), each line with its own gain. A line's gain moves from its current value to
its target in equal steps of `(target - current) / counter` over the first `counter` samples.
Within the block, sample `i < min(counter, L)` is weighted by `current + step · i`; the rest
by the gain reached, and not added at all when that gain is at most `10⁻⁵` in magnitude. When
the ramp ends inside the block the stored gain is exactly the target; otherwise it is the
gain reached. A step no larger than the machine epsilon snaps the line to its target at once.

The window is checked against the line before anything is added: a start past the end, or
an end past it, is a fault.
-/

namespace PhaseVocoder.Mix

variable {σ : Type} [SampleArith σ]

def silence : σ := 0.00001

/-- The mix of one output line `out`: its new samples and its new gain. `pos` is where the
window starts, `delta` the reciprocal of the ramp length. -/
def mixLine (input : Array σ) (out : Array σ) (g t delta : σ) (counter pos : Nat) :
    Array σ × σ :=
  let len := input.size
  let rampLen := min counter len
  let step := (t - g) * delta
  let ramping := SampleArith.lt SampleArith.epsilon (SampleArith.abs step)
  let rampEnd := if ramping then rampLen else 0
  let g' := if ramping then (if rampLen = counter then t else g + step * SampleArith.ofNat rampLen) else t
  let hold := !SampleArith.le (SampleArith.abs g') silence
  let line' := Array.ofFn (n := out.size) fun p =>
    let d := out[p.val]
    if pos ≤ p.val ∧ p.val < pos + len then
      let i := p.val - pos
      let s := input.getD i 0
      if i < rampEnd then d + s * (g + step * SampleArith.ofNat i)
      else if hold then d + s * g'
      else d
    else d
  (line', g')

/-- Mixes `input` into the lines at `outPos`, ramping each line's gain toward its target over
`counter` samples; returns the lines and the new current gains. -/
def mix (input : Array σ) (lines : Array (Array σ)) (current target : Vector σ 16)
    (counter outPos : Nat) : Except Fault (Array (Array σ) × Vector σ 16) := do
  let delta : σ := if counter > 0 then 1 / SampleArith.ofNat counter else 0
  let mut lines := lines
  let mut gains := current
  for h : j in [0:16] do
    if j < lines.size then
      let line := lines.getD j #[]
      let stop ← Word.u64.add outPos input.size
      checkSlice outPos stop.toNat line.size
      let (line', g') := mixLine input line (current.get ⟨j, h.2.1⟩)
        (target.get ⟨j, h.2.1⟩) delta counter outPos
      lines := lines.setIfInBounds j line'
      gains := gains.set j g' h.2.1
  pure (lines, gains)

end PhaseVocoder.Mix
