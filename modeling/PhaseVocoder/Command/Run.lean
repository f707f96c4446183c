import PhaseVocoder.Command.Line
import PhaseVocoder.Render
import PhaseVocoder.Wave.Read
import PhaseVocoder.Wave.Write

/-!
# Running the command: `run` (cli.rs:68-99)

A run reads the tuning (the configuration file if one is named, else the default, then
`--coarse` and `--fine`, each checked), then the input clip, shifts it in blocks of
`--block` samples, and writes the output clip as 16-bit PCM or, with `--float`, as 32-bit
float. The first failure ends the run; nothing is written unless every earlier step
succeeded.

The file operations are a parameter (`Files`), so a run can be carried out on a disk or on
any other store of named byte strings; a failed file operation is described by its text. The
reading of the configuration text is a parameter too (`Tuning.Decoder`): it is the JSON
library's. The run follows `run` (cli.rs:68-99).
-/

namespace PhaseVocoder.Command

/-- The file operations a run uses, in a monad `m`. A failure is described by its text. -/
structure Files (m : Type → Type) where
  /-- The bytes of the named file. -/
  load : String → m (Except String ByteArray)
  /-- Replaces the named file's bytes, creating it if need be. -/
  store : String → ByteArray → m (Except String Unit)

def missingFile : String := "No such file or directory (os error 2)"

def notText : String := "stream did not contain valid UTF-8"

/-- How a run ends. -/
inductive Outcome where
  /-- Help or the version, shown on standard output. -/
  | shown (text : String)
  /-- A command line that cannot be read. -/
  | usage (e : UsageError)
  /-- An error reported by the library. -/
  | failed (e : ShiftError)
  /-- A fault: an arithmetic overflow or a broken bound. -/
  | crashed (f : Fault)
  /-- The output file is written. -/
  | written

/-- The exit status of an outcome. -/
def Outcome.exitCode : Outcome → UInt32
  | .shown _ | .written => 0
  | .failed _ => 1
  | .usage _ => 2
  | .crashed _ => 101

variable {m : Type → Type} [Monad m]

/-- The tuning of a run: the configuration file's, read by `decode`, or the default, then the
flags (`Cli::props`, cli.rs:45-57). -/
def tuningOf (decode : Tuning.Decoder) (files : Files m) (o : Options) :
    m (Except ShiftError Tuning) := do
  let base ← match o.config with
    | none => pure (.ok Tuning.default)
    | some path => do
      match ← files.load path with
      | .error t => pure (.error (.io t))
      | .ok bytes => match String.fromUTF8? bytes with
        | none => pure (.error (.io notText))
        | some text => pure (Tuning.ofConfig decode text)
  pure do
    let t ← base
    let t ← match o.coarse with
      | some c => t.setCoarse c
      | none => pure t
    match o.fine with
      | some f => t.setFine f
      | none => pure t

/-- The encoding a run writes. -/
def Options.encoding (o : Options) : Wave.Encoding :=
  if o.float then .float32 else .pcm16

/-- Carries out a run with the given options. -/
def execute (decode : Tuning.Decoder) (files : Files m) (o : Options) : m Outcome := do
  match ← tuningOf decode files o with
  | .error e => pure (.failed e)
  | .ok t =>
    match ← files.load o.input with
    | .error text => pure (.failed (.io text))
    | .ok bytes =>
      match Wave.read bytes with
      | .error e => pure (.failed (.format e))
      | .ok clip =>
        match render (α := Float) Transform.radix2 (clip.samples.map Float32.ofBits) t o.block with
        | .error (.error e) => pure (.failed e)
        | .error (.fault f) => pure (.crashed f)
        | .ok shifted =>
          match Wave.write ⟨shifted.map Float32.toBits, clip.rate⟩ o.encoding with
          | .error f => pure (.crashed f)
          | .ok out =>
            match ← files.store o.output out with
            | .error text => pure (.failed (.io text))
            | .ok () => pure .written

/-- Runs the command on its arguments (without the program name). -/
def run (decode : Tuning.Decoder) (files : Files m) (args : List String) : m Outcome :=
  match read args with
  | .error e => pure (.usage e)
  | .ok .help => pure (.shown helpText)
  | .ok .version => pure (.shown versionText)
  | .ok (.run o) => execute decode files o

end PhaseVocoder.Command
