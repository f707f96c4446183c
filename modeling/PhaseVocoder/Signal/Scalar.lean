import PhaseVocoder.Ieee

/-!
# Scalars of the spectral stages

The analysis and synthesis stages compute with one scalar type through the class `Scalar`:
field operations, the constants π and 1/π, sine, cosine, the modulus and argument of a
point of the plane, truncation to an integer, and comparisons. The stages are written once
against the class. At run time the scalar is `Float` (binary64); over the real numbers the
same definitions read as exact arithmetic, which is how the stages' laws are stated.

A `Phasor` is a complex number with components in the scalar: one bin of a spectrum.
-/

namespace PhaseVocoder

/-- The operations the spectral stages use on their scalars. `truncate` goes toward zero and
saturates at the signed 64-bit range, which is where the phase unwrapping reads its turn
count. -/
class Scalar (α : Type) extends Add α, Sub α, Mul α, Div α, Neg α where
  /-- A natural number as a scalar (exact for the small counts used here). -/
  ofNat : Nat → α
  /-- An integer as a scalar, rounded to the nearest. -/
  ofInt : Int → α
  /-- The circle constant π. -/
  pi : α
  /-- The reciprocal of π. -/
  invPi : α
  sin : α → α
  cos : α → α
  /-- `√(x² + y²)`. -/
  hypot : α → α → α
  /-- The argument of the point `(x, y)`, taken as `arg y x`, in `[-π, π]`. -/
  arg : α → α → α
  /-- Truncation toward zero, saturating at `[-2^63, 2^63 - 1]`. -/
  truncate : α → Int
  lt : α → α → Bool
  le : α → α → Bool

namespace Scalar

variable {α : Type} [Scalar α]

instance (priority := low) instOfNat (n : Nat) : OfNat α n := ⟨Scalar.ofNat n⟩

end Scalar

/-- Binary64 scalars: the native operations, with the modulus rounded once from the exact
sum of squares and truncation read off the float model. -/
instance : Scalar Float where
  ofNat := Float.ofNat
  ofInt := Float.ofInt
  pi := Float.ofBits 0x400921FB54442D18
  invPi := Float.ofBits 0x3FD45F306DC9C883
  sin := Float.sin
  cos := Float.cos
  hypot := Ieee.hypot
  arg := Float.atan2
  truncate := Ieee.truncInt64
  lt a b := a < b
  le a b := a ≤ b

/-- A complex number with components in a scalar type. -/
structure Phasor (α : Type) where
  re : α
  im : α

namespace Phasor

variable {α : Type} [Scalar α]

def zero : Phasor α := ⟨0, 0⟩

instance : Inhabited (Phasor α) := ⟨zero⟩

def conj (z : Phasor α) : Phasor α := ⟨z.re, -z.im⟩

/-- The point at distance `r` and angle `θ`: `(r cos θ, r sin θ)`. -/
def polar (r θ : α) : Phasor α := ⟨r * Scalar.cos θ, r * Scalar.sin θ⟩

def norm (z : Phasor α) : α := Scalar.hypot z.re z.im

/-- The argument of `z`, in `[-π, π]`. -/
def arg (z : Phasor α) : α := Scalar.arg z.im z.re

end Phasor

end PhaseVocoder
