import PhaseVocoder.Signal.Scalar

/-!
# Frequency bins: `FrequencyBin` (core/types.rs:44-57)

A frequency bin is what analysis makes of one bin of a spectrum: its magnitude and its true
frequency, measured in bins (bin `k` of a 1024-sample frame at rate `r` is `k · r / 1024` Hz).
A bin set has one bin for each of the 513 spectrum bins.
-/

namespace PhaseVocoder

/-- Magnitude and true frequency (in bins) of one spectrum bin. -/
structure Bin (α : Type) where
  magnitude : α
  freq : α

namespace Bin

variable {α : Type} [Scalar α]

def zero : Bin α := ⟨0, 0⟩

instance : Inhabited (Bin α) := ⟨zero⟩

end Bin

/-- One bin for each of the 513 spectrum bins. -/
abbrev BinSet (α : Type) := Vector (Bin α) 513

def BinSet.zero {α : Type} [Scalar α] : BinSet α := Vector.replicate 513 Bin.zero

end PhaseVocoder
