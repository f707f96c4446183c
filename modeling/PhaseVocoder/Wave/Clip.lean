import PhaseVocoder.Ieee

/-!
# Mono clips

A clip is a sequence of binary32 samples at a sample rate in hertz (`MonoClip`,
io/wav.rs:14-19). The samples are kept as their 32-bit patterns: `Float32` has a single NaN, so
only the patterns carry every NaN payload and sign through reading and writing; a sample is
read as a `Float32` where it is computed with. Its duration is the sample count over the rate,
in binary64, and zero when the rate is zero.
-/

namespace PhaseVocoder.Wave

/-- Mono binary32 samples, as bit patterns, at a sample rate. -/
structure Clip where
  samples : Array UInt32
  rate : UInt32

/-- Seconds of `count` samples at `rate`: count over rate, zero at rate zero. -/
def durationOf (count : Nat) (rate : UInt32) : Float :=
  if rate = 0 then 0 else Float.ofNat count / Float.ofNat rate.toNat

def Clip.duration (c : Clip) : Float :=
  durationOf c.samples.size c.rate

/-- Little-endian unsigned integer of `width` bytes at `offset` (missing bytes read as zero). -/
def readLE (d : ByteArray) (offset width : Nat) : Nat :=
  (List.range width).foldr (fun i acc => acc * 256 + (d[offset + i]?.getD 0).toNat) 0

/-- The `width` little-endian bytes of `n` modulo `256^width`. -/
def bytesLE (n : Nat) : (width : Nat) → List UInt8
  | 0 => []
  | w + 1 => (n % 256).toUInt8 :: bytesLE (n / 256) w

def tag (s : String) : List UInt8 := s.toUTF8.toList

end PhaseVocoder.Wave
