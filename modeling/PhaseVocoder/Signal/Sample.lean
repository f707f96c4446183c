import PhaseVocoder.Ieee

/-!
# Audio samples

Samples travel between the blocks of a stream, the output lines and the gains in a narrower
type than the spectral scalars. The class `SampleArith` gives what the mixer and the
panner compute with; `Widening` converts samples into scalars exactly and back with one
rounding. At run time samples are `Float32` and scalars `Float`; over the real numbers both
are the reals and the conversions are the identity.
-/

namespace PhaseVocoder

/-- Arithmetic on samples: field operations, decimal constants, magnitudes, comparisons and
the format's machine epsilon. -/
class SampleArith (σ : Type) extends Add σ, Sub σ, Mul σ, Div σ, Neg σ, OfScientific σ where
  /-- A natural number as a sample, rounded to the nearest. -/
  ofNat : Nat → σ
  abs : σ → σ
  lt : σ → σ → Bool
  le : σ → σ → Bool
  /-- The gap between one and the next representable sample above it. -/
  epsilon : σ

/-- Conversions between samples and spectral scalars: `widen` is exact, `narrow` rounds. -/
class Widening (σ : Type) (α : Type) where
  widen : σ → α
  narrow : α → σ

namespace SampleArith

variable {σ : Type} [SampleArith σ]

instance (priority := low) instOfNat (n : Nat) : OfNat σ n := ⟨SampleArith.ofNat n⟩

end SampleArith

/-- Binary32 samples with their native operations; epsilon is `2^-23`. -/
instance : SampleArith Float32 where
  ofNat := Float32.ofNat
  abs := Float32.abs
  lt a b := a < b
  le a b := a ≤ b
  epsilon := Float32.ofBits 0x34000000

/-- Binary32 samples widen exactly to binary64 scalars and narrow to the nearest. -/
instance : Widening Float32 Float where
  widen := Ieee.toDouble
  narrow := Ieee.toSingle

end PhaseVocoder
