import PhaseVocoder.Fault
import PhaseVocoder.Signal.Scalar

/-!
# Unwrapping phases (shift/phase.rs:1-34)

Both wraps subtract an even whole number of half turns found by truncation. With
`q = truncate x` (toward zero, saturating at the signed 64-bit range), `q + q % 2` is the even
integer next to `q` away from zero, or `q` itself when even; subtracting it leaves a value in
`(-2, 2)`, and a value at or below `-1` is moved up by two. So `halfTurns x` lies in `(-1, 1]`
and differs from `x` by an even integer; `radians p` does the same in units of π, landing in
`(-π, π]`.

The sum `q + q % 2` is computed in the signed 64-bit word and faults when `q` is the largest
word, which saturation gives for every `x ≥ 2^63` and for `+∞`.
-/

namespace PhaseVocoder.Phase

variable {α : Type} [Scalar α]

/-- The even integer `q + q % 2` for the truncation `q` of `x`, in the signed 64-bit word. -/
def evenTurns (x : α) : Except Fault Int :=
  let q := Scalar.truncate x
  Word.i64.add q (q.tmod 2)

/-- `x` less an even integer, in `(-1, 1]` (`wrap_half_turns`, shift/phase.rs:12-22). -/
def halfTurns (x : α) : Except Fault α := do
  let w := x - Scalar.ofInt (← evenTurns x)
  pure (if Scalar.le w (-1) then w + 2 else w)

/-- `p` less an even multiple of π, in `(-π, π]` (`wrap_phase`, shift/phase.rs:24-34). -/
def radians (p : α) : Except Fault α := do
  let w := p - Scalar.pi * Scalar.ofInt (← evenTurns (p * Scalar.invPi))
  pure (if Scalar.le w (-Scalar.pi) then w + 2 * Scalar.pi else w)

end PhaseVocoder.Phase
