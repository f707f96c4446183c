import PhaseVocoder.Signal.Scalar

/-!
# Pitch ratios: `PitchRatio` (core/types.rs:59-112, shift/remap.rs:9-32)

A pitch ratio is held in 16.16 fixed point: `fixed / 65536`. Every constructor ends in
`ofFixed`: `ofSingle` scales a binary32 ratio by 65536 and rounds it (half away from zero,
saturating into the unsigned 32-bit range, NaN to zero), and `ofCents` takes the ratio
`2^(c/1200)` computed in binary32.

A ratio moves analysis bin `k` to synthesis bin `targetBin k = ⌊(k · fixed + 32768) / 65536⌋`,
the nearest bin to `k · fixed / 65536` with ties upward. `binCount` is the number of analysis
bins whose target is at most the last bin 512.
-/

namespace PhaseVocoder

/-- A pitch ratio in 16.16 fixed point. -/
structure PitchRatio where
  fixed : UInt32
deriving DecidableEq, Repr

namespace PitchRatio

def unity : PitchRatio := ⟨65536⟩

instance : Inhabited PitchRatio := ⟨unity⟩

def ofFixed (fixed : UInt32) : PitchRatio := ⟨fixed⟩

/-- The ratio as a scalar: `fixed · (1/65536)`, exact in binary64. -/
def scale {α : Type} [Scalar α] (r : PitchRatio) : α :=
  Scalar.ofNat r.fixed.toNat * (1 / 65536)

/-- A binary32 ratio scaled by 65536 and rounded half away from zero; values past the
unsigned 32-bit range saturate, negative values and NaN give zero. -/
def ofSingle (ratio : Float32) : PitchRatio :=
  ofFixed (ratio * 65536).round.toUInt32

/-- The ratio `2^(cents/1200)`, evaluated in binary32. -/
def ofCents (cents : Int) : PitchRatio :=
  ofSingle (Float32.pow 2 (Float32.ofInt cents / 1200))

/-- `(513 · 65536) - 32768 - 1`: bin `k` stays at or below bin 512 exactly when
`k · fixed ≤ binLimit`. -/
def binLimit : Nat := 513 * 65536 - 32768 - 1

/-- The number of analysis bins (at most 513) that the ratio keeps (`bin_count`,
shift/remap.rs:15-22). -/
def binCount (r : PitchRatio) : Nat :=
  if r.fixed = 0 then 513 else min 513 (binLimit / r.fixed.toNat + 1)

/-- The synthesis bin that analysis bin `k` moves to (`target_bin`, shift/remap.rs:24-32). -/
def targetBin (r : PitchRatio) (k : Nat) : Nat :=
  (k * r.fixed.toNat + 32768) / 65536

end PitchRatio

end PhaseVocoder
