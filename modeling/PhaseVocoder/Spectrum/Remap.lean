import PhaseVocoder.Spectrum.Bin
import PhaseVocoder.Ratio

/-!
# Moving bins by a pitch ratio: `remap_bins` (shift/remap.rs:9-45)

Remapping builds a synthesis bin set from an analysis bin set: analysis bin `k` (for the
`binCount` bins whose target is at most 512) goes to synthesis bin `targetBin k`. Magnitudes
landing on the same synthesis bin add up; the frequency, scaled by the ratio, is taken from
the last contributor whose magnitude exceeded the sum accumulated before it. Synthesis bins
that receive nothing are silent at frequency zero.
-/

namespace PhaseVocoder

namespace BinSet

variable {α : Type} [Scalar α]

/-- Adds analysis bin `src` into synthesis bin `j`: the frequency follows a louder bin. -/
def deposit (r : PitchRatio) (s : BinSet α) (j : Nat) (src : Bin α) : BinSet α :=
  if h : j < 513 then
    let dst := s.get ⟨j, h⟩
    let freq := if Scalar.lt dst.magnitude src.magnitude then src.freq * r.scale else dst.freq
    s.set j ⟨dst.magnitude + src.magnitude, freq⟩ h
  else s

/-- The synthesis bin set for `analysis` under ratio `r` (`remap_bins`, shift/remap.rs:34-45). -/
def remap (r : PitchRatio) (analysis : BinSet α) : BinSet α :=
  (List.range r.binCount).foldl
    (fun s k => if h : k < 513 then deposit r s (r.targetBin k) (analysis.get ⟨k, h⟩) else s)
    BinSet.zero

end BinSet

end PhaseVocoder
