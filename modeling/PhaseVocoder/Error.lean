import PhaseVocoder.Config.Error
import PhaseVocoder.Fault
import PhaseVocoder.Wave.Error

/-!
# Reported errors: `PshiftError` (error.rs:5-27)

The errors an operation returns about its input: a tuning outside its range, a block size
outside `[1, 1024]`, an unreadable WAV file, a failed file operation, or an unreadable
configuration. `ShiftError.message` gives the text of each. A `Failure` is either such an
error or a `Fault`.
-/

namespace PhaseVocoder

/-- An error reported to the caller (`PshiftError`, error.rs:8-27). -/
inductive ShiftError where
  /-- A coarse tuning outside `[-12, 12]` semitones. -/
  | coarseOutOfRange (semitones : Int32)
  /-- A fine tuning outside `[-50, 50]` cents. -/
  | fineOutOfRange (cents : Int32)
  /-- A block size outside `[1, 1024]`. -/
  | blockSize (n : Nat)
  /-- A byte string that is not a readable WAV clip. -/
  | format (e : Wave.WaveError)
  /-- A file that could not be read or written, with the system's description. -/
  | io (text : String)
  /-- A configuration text that could not be read. -/
  | config (e : Config.ConfigError)

def ShiftError.message : ShiftError → String
  | .coarseOutOfRange n => "coarse tune " ++ toString n.toInt ++ " out of range [-12, 12] semitones"
  | .fineOutOfRange n => "fine tune " ++ toString n.toInt ++ " out of range [-50, 50] cents"
  | .blockSize n => "block size " ++ toString n ++ " out of range [1, 1024]"
  | .format e => "invalid format: " ++ e.message
  | .io t => "I/O error: " ++ t
  | .config e => "invalid configuration: " ++ e.message

/-- How an operation can end without a result: a reported error or a fault. -/
inductive Failure where
  | error (e : ShiftError)
  | fault (f : Fault)

def Failure.ofFault {α : Type} (x : Except Fault α) : Except Failure α :=
  x.mapError Failure.fault

def Failure.ofError {α : Type} (x : Except ShiftError α) : Except Failure α :=
  x.mapError Failure.error

end PhaseVocoder
