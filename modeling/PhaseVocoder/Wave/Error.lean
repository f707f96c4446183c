/-!
# Faults of a WAV file (io/wav.rs:74-153)

Why a byte string is not a clip the reader accepts: too short for the RIFF header, a wrong
header or form type, a malformed or missing format chunk, no data chunk, a zero channel count
or sample rate, or an encoding the reader does not decode.
-/

namespace PhaseVocoder.Wave

/-- Why a byte string is not a readable clip. -/
inductive WaveError where
  | tooShort
  | missingRiff
  | missingWave
  | fmtTooShort
  | extensibleTooShort
  | noFmt
  | noData
  | zeroChannels
  | zeroRate
  | unsupported (code bits : Nat)
deriving DecidableEq, Repr

def WaveError.message : WaveError → String
  | .tooShort => "WAV file too short"
  | .missingRiff => "missing RIFF header"
  | .missingWave => "missing WAVE identifier"
  | .fmtTooShort => "fmt chunk too short"
  | .extensibleTooShort => "extensible fmt chunk too short"
  | .noFmt => "no fmt chunk found"
  | .noData => "no data chunk found"
  | .zeroChannels => "zero channels"
  | .zeroRate => "zero sample rate"
  | .unsupported c b => "unsupported WAV format: code=" ++ toString c ++ ", bits=" ++ toString b

end PhaseVocoder.Wave
