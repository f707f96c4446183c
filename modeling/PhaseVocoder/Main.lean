import PhaseVocoder.Command.Run
import PhaseVocoder.Config.Tuning

/-!
# The `pshift` program

Runs the command on the disk: help and the version go to standard output, errors to
standard error, and the exit status tells how the run ended.
-/

open PhaseVocoder Command

def describeFailure : IO.Error → String
  | .noFileOrDirectory .. => missingFile
  | .permissionDenied .. => "Permission denied (os error 13)"
  | e => toString e

/-- File operations on the disk. -/
def diskFiles : Files IO where
  load path := do
    try pure (.ok (← IO.FS.readBinFile path))
    catch e => pure (.error (describeFailure e))
  store path bytes := do
    try
      IO.FS.writeBinFile path bytes
      pure (.ok ())
    catch e => pure (.error (describeFailure e))

def main (args : List String) : IO UInt32 := do
  let outcome ← run Config.decodeTuning diskFiles args
  match outcome with
  | .shown text => IO.println text
  | .usage e => IO.eprintln e.report
  | .failed e => IO.eprintln ("[ERROR pshift] " ++ e.message)
  | .crashed f => IO.eprintln ("pshift panicked: " ++ f.message)
  | .written => pure ()
  pure outcome.exitCode
