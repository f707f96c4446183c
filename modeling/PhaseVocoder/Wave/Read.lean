import PhaseVocoder.Wave.Clip
import PhaseVocoder.Wave.Error

/-!
# Reading WAV files: `read_wav` (io/wav.rs:74-169, 230-243)

A WAV file is the RIFF header (`RIFF`, a size, `WAVE`) followed by chunks: a four-byte
identifier, a 32-bit little-endian size, the body, and a pad byte after an odd size. The
reader walks the chunks while a whole chunk header remains, cutting bodies at the end of the
data. A format chunk is checked as soon as it is met; the last format chunk and the last data
chunk count.

The format chunk gives the encoding, the channel count, the rate and the sample width; an
extensible format takes its encoding from its sub-format field. Decoded are 16, 24 and
32-bit integer PCM and 32-bit float. The clip is the first channel of every whole frame of
the data chunk: integers are scaled to `[-1, 1)` by `2^(width-1)`, floats kept as they are.
-/

namespace PhaseVocoder.Wave

structure Format where
  code : Nat
  channels : Nat
  rate : Nat
  bits : Nat

/-- Parses a format chunk body: 16 bytes at least, 26 for the extensible encoding `0xFFFE`, whose
sub-format code sits at offset 24 (`parse_fmt`, io/wav.rs:135-153). -/
def Format.parse (body : ByteArray) : Except WaveError Format := do
  if body.size < 16 then throw .fmtTooShort
  let code := readLE body 0 2
  let code ← if code = 0xFFFE then
      if body.size < 26 then throw .extensibleTooShort else pure (readLE body 24 2)
    else pure code
  pure ⟨code, readLE body 2 2, readLE body 4 4, readLE body 14 2⟩

structure Chunks where
  format : Option Format := none
  data : Option ByteArray := none

/-- Walks the chunks from `cursor`, while a chunk header fits. -/
def walk (d : ByteArray) (cursor : Nat) (acc : Chunks) : Except WaveError Chunks :=
  if h : cursor + 8 ≤ d.size then
    let id := (d.extract cursor (cursor + 4)).toList
    let size := readLE d (cursor + 4) 4
    let bodyStart := cursor + 8
    let body := d.extract bodyStart (min (bodyStart + size) d.size)
    let next := bodyStart + size + size % 2
    if id = tag "fmt " then do
      let f ← Format.parse body
      walk d next { acc with format := some f }
    else if id = tag "data" then walk d next { acc with data := some body }
    else walk d next acc
  else .ok acc
termination_by d.size - cursor

def sampleWidth (f : Format) : Except WaveError Nat :=
  match f.code, f.bits with
  | 1, 16 => .ok 2
  | 1, 24 => .ok 3
  | 1, 32 => .ok 4
  | 3, 32 => .ok 4
  | c, b => .error (.unsupported c b)

/-- The two's complement value of an unsigned `bits`-bit pattern. -/
def signed (n bits : Nat) : Int :=
  if n < Nat.pow 2 (bits - 1) then n else (n : Int) - (Nat.pow 2 bits : Nat)

/-- Decodes the sample at `offset` into the bit pattern of a binary32 value; a float sample's
pattern is its four bytes as they stand. -/
def decodeSample (code width : Nat) (d : ByteArray) (offset : Nat) : UInt32 :=
  let raw := readLE d offset width
  match code, width with
  | 1, 2 => (Float32.ofInt (signed raw 16) / 32768).toBits
  | 1, 3 => (Float32.ofInt (signed raw 24) / 8388608).toBits
  | 1, 4 => (Ieee.toSingle (Float.ofInt (signed raw 32) / 2147483648)).toBits
  | _, _ => raw.toUInt32

/-- Reads a mono clip from the bytes of a WAV file (`read_wav`, io/wav.rs:74-133). -/
def read (d : ByteArray) : Except WaveError Clip := do
  if d.size < 12 then throw .tooShort
  if (d.extract 0 4).toList ≠ tag "RIFF" then throw .missingRiff
  if (d.extract 8 12).toList ≠ tag "WAVE" then throw .missingWave
  let chunks ← walk d 12 {}
  let some f := chunks.format | throw .noFmt
  let some body := chunks.data | throw .noData
  if f.channels = 0 then throw .zeroChannels
  if f.rate = 0 then throw .zeroRate
  let width ← sampleWidth f
  let frame := width * f.channels
  let samples := Array.ofFn (n := body.size / frame) fun i => decodeSample f.code width body (i.val * frame)
  pure ⟨samples, f.rate.toUInt32⟩

end PhaseVocoder.Wave
