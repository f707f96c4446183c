import PhaseVocoder.Signal.Scalar

/-!
# Frame geometry and the analysis window (core/types.rs:6-24, core/window.rs:18-36)

Frames are 1024 samples; consecutive frames start one hop of 256 samples apart, so each
sample lies in four frames. A frame's spectrum has 513 bins (0 to 512).

The window is the squared sine `w i = sin²((i + ½) · π / 1024)`, computed on the first half
and reflected onto the second, so `w i = w (1023 - i)`. Squared windows overlap-add to the constant
`overlapGain = 3/8 · 4 = 3/2` at every position, and `outputScale = 1 / (1024 · 3/2)` undoes
that gain together with the unnormalised inverse transform.
-/

namespace PhaseVocoder

def frameLength : Nat := 1024

def hopLength : Nat := 256

def binTotal : Nat := 513

namespace Window

variable {α : Type} [Scalar α]

/-- The squared sine of the half-sample-offset angle `(i + ½) · π / 1024`, for `i < 512`. -/
def halfValue (i : Nat) : α :=
  let v := Scalar.sin ((Scalar.ofNat i + 1 / 2) * (Scalar.pi / 1024))
  v * v

/-- The window table: the first half computed, the second its reflection (`init_hann_window`,
core/window.rs:21-32). -/
def table : Vector α 1024 :=
  Vector.ofFn fun i => halfValue (if i.val < 512 then i.val else 1023 - i.val)

/-- The sum of the squared window over the four frames covering a sample. -/
def overlapGain : α := 3 / 8 * 4

/-- The scale that turns an overlap-added inverse transform back into samples. -/
def outputScale : α := 1 / (1024 * overlapGain)

/-- The phase advance per hop of bin one, in radians: a quarter turn. -/
def expectedCycles : α := 2 * Scalar.pi / 4

end Window

end PhaseVocoder
