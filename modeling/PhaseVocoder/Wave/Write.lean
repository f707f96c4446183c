import PhaseVocoder.Wave.Clip
import PhaseVocoder.Fault

/-!
# Writing WAV files: `write_wav` (io/wav.rs:40-61, 172-212)

The writer produces the canonical 44-byte header (`RIFF`, size, `WAVE`, a 16-byte `fmt `
chunk, a `data` chunk header) followed by one channel of samples: 16-bit PCM, each sample
clamped to `[-1, 1]`, scaled by 32767 and truncated toward zero (NaN to zero), or 32-bit
float bit for bit.

The byte rate `rate · width` and the file size `36 + data size` are 32-bit fields computed
with overflow checks; the data size itself is the byte count modulo `2^32`.
-/

namespace PhaseVocoder.Wave

/-- How samples are stored. -/
inductive Encoding where
  | pcm16
  | float32
deriving DecidableEq, Repr

def Encoding.code : Encoding → Nat
  | .pcm16 => 1
  | .float32 => 3

def Encoding.bits : Encoding → Nat
  | .pcm16 => 16
  | .float32 => 32

/-- A sample clamped to `[-1, 1]` (NaN kept), scaled by 32767 and truncated to 16 bits. -/
def pcm16Code (s : Float32) : Int :=
  let c := if s < -1 then -1 else if s > 1 then 1 else s
  Ieee.truncSingleInt16 (c * 32767)

/-- The stored bytes of one sample, given as a bit pattern. -/
def sampleBytes : Encoding → UInt32 → List UInt8
  | .pcm16, s => bytesLE ((pcm16Code (Float32.ofBits s)) % 65536).toNat 2
  | .float32, s => bytesLE s.toNat 4

/-- The bytes of a WAV file holding the clip (`write_wav`, io/wav.rs:172-212). -/
def write (c : Clip) (enc : Encoding) : Except Fault ByteArray := do
  let width := enc.bits / 8
  let byteRate ← Word.u32.mul c.rate.toNat width
  let dataSize : Nat := (c.samples.size * width) % 4294967296
  let fileSize ← Word.u32.add 36 dataSize
  let header :=
    tag "RIFF" ++ bytesLE fileSize.toNat 4 ++ tag "WAVE" ++
    tag "fmt " ++ bytesLE 16 4 ++ bytesLE enc.code 2 ++ bytesLE 1 2 ++
    bytesLE c.rate.toNat 4 ++ bytesLE byteRate.toNat 4 ++ bytesLE width 2 ++ bytesLE enc.bits 2 ++
    tag "data" ++ bytesLE dataSize 4
  let body := c.samples.toList.flatMap (sampleBytes enc)
  pure (header ++ body).toByteArray

end PhaseVocoder.Wave
