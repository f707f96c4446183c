import PhaseVocoder.Fault
import PhaseVocoder.Signal.Sample

/-!
# Ambisonic panning (mixer.rs:18-107)

An output layout lists, for each output line, the ambisonic channel it carries (in ACN
order, up to third order: 16 channels) and a decoder scale. `Layout.ambisonic n` is the full
layout of order `n` with scale one, `(n + 1)²` lines clamped to 16; the count is computed in
64-bit words and faults on overflow.

`directionCoeffs` gives the N3D-normalised spherical harmonics up to third order of a unit
direction in right-handed coordinates (+x right, +y up, −z front), after turning it into the
ambisonic frame (+x front, +y left, +z up). `panGains` multiplies, line by line, the decoder
scale, the coefficient of the line's channel (zero past the sixteenth) and an input gain;
lines past the layout get zero.
-/

namespace PhaseVocoder

/-- One output line of a layout: its ambisonic channel and its decoder scale. -/
structure Channel (σ : Type) where
  scale : σ
  index : Nat

abbrev Layout (σ : Type) := Array (Channel σ)

namespace Layout

variable {σ : Type} [SampleArith σ]

/-- The first `n` channels, each at scale one. -/
def firstChannels (n : Nat) : Layout σ :=
  Array.ofFn (n := n) fun i => ⟨1, i.val⟩

/-- The full layout of ambisonic order `order`, at most 16 lines. -/
def ambisonic (order : Nat) : Except Fault (Layout σ) := do
  let side ← Word.u64.add order 1
  let count ← Word.u64.mul side side
  pure (firstChannels (min count.toNat 16))

def firstOrder : Layout σ := firstChannels 4

end Layout

namespace Pan

variable {σ : Type} [SampleArith σ]

/-- Spherical-harmonic coefficients up to third order of the direction `(dx, dy, dz)`
(`calc_direction_coeffs`, mixer.rs:56-88). -/
def directionCoeffs (dx dy dz : σ) : Vector σ 16 :=
  let x := -dz
  let y := -dx
  let z := dy
  let xx := x * x
  let yy := y * y
  let zz := z * z
  let xy := x * y
  let yz := y * z
  let xz := x * z
  #v[1,
    1.7320508 * y, 1.7320508 * z, 1.7320508 * x,
    3.8729833 * xy, 3.8729833 * yz, 1.118034 * (3.0 * zz - 1.0), 3.8729833 * xz,
    1.9364917 * (xx - yy),
    2.0916501 * (y * (3.0 * xx - yy)), 10.246951 * (z * xy), 1.6201852 * (y * (5.0 * zz - 1.0)),
    1.3228757 * (z * (5.0 * zz - 3.0)), 1.6201852 * (x * (5.0 * zz - 1.0)),
    5.1234754 * (z * (xx - yy)), 2.0916501 * (x * (xx - 3.0 * yy))]

def frontCoeffs : Vector σ 16 := directionCoeffs 0 0 (-1)

/-- Per-line gains: decoder scale times channel coefficient times `gain`, zero past the layout and
past the sixteenth channel (`compute_pan_gains`, mixer.rs:90-107). -/
def gains (layout : Layout σ) (coeffs : Vector σ 16) (gain : σ) : Vector σ 16 :=
  Vector.ofFn fun j =>
    match layout[j.val]? with
    | some c =>
      let coeff := if h : c.index < 16 then coeffs.get ⟨c.index, h⟩ else 0
      c.scale * coeff * gain
    | none => 0

end Pan

end PhaseVocoder
