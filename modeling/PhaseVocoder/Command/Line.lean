/-!
# Reading the command line: `Cli` (cli.rs:12-65)

`pshift INPUT OUTPUT [--coarse N] [--fine N] [--block N] [--config FILE] [--float] [-v]`
pitch-shifts the first channel of a WAV file. `read` turns the arguments into a
`Request`: the options of a run, or the help or version text, or a `UsageError`.

Arguments are read left to right:

* `--` alone makes every later argument positional; `--name` and `--name=value` name a long
  option; `-abc` is a run of the short flags `-v`, `-h`, `-V`; a lone `-` is a value;
* an option that takes a value takes the text after `=`, or else the next argument. For
  `--coarse` and `--fine` the next argument is taken whatever it looks like; for `--block`
  and `--config` an argument that looks like an option is read as an option, which leaves
  the value missing;
* a value is checked, and stored, when its slot is complete: a `--name=value` at once, a
  value given as its own argument (an option's or a positional's) when the next argument
  other than `--` is read, or at the end. Completing a slot can fail (a missing value,
  a second use, a value that does not parse); that failure is reported unless the argument
  that triggered it is itself unknown, in which case the unknown argument is reported;
* `-h` and `-V` end the reading at once, after completing the waiting slot.

At the end the waiting slot is completed, both positionals must be present, and the block
size defaults to 1024.
-/

namespace PhaseVocoder.Command

/-! ## Numbers -/

def emptyNumber : String := "cannot parse integer from empty string"

def badDigit : String := "invalid digit found in string"

def tooLarge : String := "number too large to fit in target type"

def tooSmall : String := "number too small to fit in target type"

/-- Accumulates decimal digits into `acc`, adding them when `up` and subtracting otherwise,
and fails at the first character that is not a digit or that takes the value outside
`[lo, hi]`. -/
def digits (lo hi : Int) (up : Bool) (acc : Int) : List Char → Except String Int
  | [] => .ok acc
  | c :: cs =>
    if c.isDigit then
      let d : Int := (c.toNat - 48 : Nat)
      let next := if up then acc * 10 + d else acc * 10 - d
      if next > hi then .error tooLarge
      else if next < lo then .error tooSmall
      else digits lo hi up next cs
    else .error badDigit

/-- Decimal text as an integer of `[lo, hi]` (with `lo ≤ 0 ≤ hi`): an optional sign, a minus
only when `lo < 0`, then at least one digit. -/
def parseInteger (lo hi : Int) (text : String) : Except String Int :=
  match text.toList with
  | [] => .error emptyNumber
  | [c] => if c == '+' || c == '-' then .error badDigit else digits lo hi true 0 [c]
  | c :: cs =>
    if c == '+' then digits lo hi true 0 cs
    else if c == '-' && lo < 0 then digits lo hi false 0 cs
    else digits lo hi true 0 (c :: cs)

/-! ## Requests and errors -/

structure Options where
  input : String
  output : String
  coarse : Option Int32
  fine : Option Int32
  block : Nat
  config : Option String
  float : Bool
  verbose : Bool

inductive Request where
  | run (o : Options)
  | help
  | version

inductive UsageError where
  | unexpected (arg : String)
  | unexpectedValue (value : String) (arg : String)
  | missingValue (arg : String)
  | repeated (arg : String)
  | invalidValue (value : String) (arg : String) (reason : String)
  | missingArguments (names : List String)

def UsageError.headline : UsageError → String
  | .unexpected a => "error: unexpected argument '" ++ a ++ "' found"
  | .unexpectedValue v a => "error: unexpected value '" ++ v ++ "' for '" ++ a ++ "' found; no more were expected"
  | .missingValue a => "error: a value is required for '" ++ a ++ "' but none was supplied"
  | .repeated a => "error: the argument '" ++ a ++ "' cannot be used multiple times"
  | .invalidValue v a r => "error: invalid value '" ++ v ++ "' for '" ++ a ++ "': " ++ r
  | .missingArguments _ => "error: the following required arguments were not provided:"

def usageLine : String := "Usage: pshift [OPTIONS] <INPUT> <OUTPUT>"

def UsageError.report (e : UsageError) : String :=
  let details := match e with
    | .missingArguments names => String.join (names.map fun n => "\n  " ++ n)
    | _ => ""
  e.headline ++ details ++ "\n\n" ++ usageLine ++ "\n\nFor more information, try '--help'."

def versionText : String := "pshift 0.1.0"

def helpText : String :=
  "Pitch-shifts the first channel of a WAV file\n\n" ++ usageLine ++ "\n\n" ++
  "Arguments:\n" ++
  "  <INPUT>   Input WAV file (16/24/32-bit PCM or 32-bit float)\n" ++
  "  <OUTPUT>  Output WAV file (mono)\n\n" ++
  "Options:\n" ++
  "      --coarse <COARSE>  Shift in semitones, -12 to 12\n" ++
  "      --fine <FINE>      Additional shift in cents, -50 to 50\n" ++
  "      --block <BLOCK>    Samples per processing block, 1 to 1024 [default: 1024]\n" ++
  "      --config <CONFIG>  JSON file with coarse_tune/fine_tune; flags override it\n" ++
  "      --float            Write 32-bit float output instead of 16-bit PCM\n" ++
  "  -v, --verbose          Show detailed processing parameters and timing\n" ++
  "  -h, --help             Print help\n" ++
  "  -V, --version          Print version"

/-! ## Slots and flags -/

/-- A place for one value: the two positionals and the options that take a value. -/
inductive Slot where
  | input
  | output
  | coarse
  | fine
  | block
  | config

def Slot.label : Slot → String
  | .input => "<INPUT>"
  | .output => "<OUTPUT>"
  | .coarse => "--coarse <COARSE>"
  | .fine => "--fine <FINE>"
  | .block => "--block <BLOCK>"
  | .config => "--config <CONFIG>"

def Slot.takesHyphen : Slot → Bool
  | .coarse | .fine => true
  | _ => false

inductive Flag where
  | float
  | verbose
  | help
  | version

def Flag.label : Flag → String
  | .float => "--float"
  | .verbose => "--verbose"
  | .help => "--help"
  | .version => "--version"

def longOption : String → Option (Slot ⊕ Flag)
  | "coarse" => some (.inl .coarse)
  | "fine" => some (.inl .fine)
  | "block" => some (.inl .block)
  | "config" => some (.inl .config)
  | "float" => some (.inr .float)
  | "verbose" => some (.inr .verbose)
  | "help" => some (.inr .help)
  | "version" => some (.inr .version)
  | _ => none

def shortFlag : Char → Option Flag
  | 'v' => some .verbose
  | 'h' => some .help
  | 'V' => some .version
  | _ => none

/-! ## Reading -/

structure Gathered where
  input : Option String := none
  output : Option String := none
  coarse : Option Int32 := none
  fine : Option Int32 := none
  block : Option Nat := none
  config : Option String := none
  float : Bool := false
  verbose : Bool := false

def Gathered.holds (g : Gathered) : Slot → Bool
  | .input => g.input.isSome
  | .output => g.output.isSome
  | .coarse => g.coarse.isSome
  | .fine => g.fine.isSome
  | .block => g.block.isSome
  | .config => g.config.isSome

/-- A path: any text but the empty one. -/
def pathValue (slot : Slot) (v : String) : Except UsageError String :=
  if v.isEmpty then .error (.missingValue slot.label) else .ok v

/-- A tuning value: a 64-bit integer that must fit 32 bits. -/
def tuningValue (slot : Slot) (v : String) : Except UsageError Int32 :=
  match parseInteger (-9223372036854775808) 9223372036854775807 v with
  | .error r => .error (.invalidValue v slot.label r)
  | .ok n =>
    if -2147483648 ≤ n ∧ n ≤ 2147483647 then .ok (Int32.ofInt n)
    else .error (.invalidValue v slot.label (toString n ++ " is not in -2147483648..=2147483647"))

/-- A size value: an unsigned 64-bit integer. -/
def sizeValue (slot : Slot) (v : String) : Except UsageError Nat :=
  match parseInteger 0 18446744073709551615 v with
  | .error r => .error (.invalidValue v slot.label r)
  | .ok n => .ok n.toNat

/-- Stores the value of a completed slot: a missing value, a second use, or a value that
does not parse is an error, in that order. -/
def Gathered.assign (g : Gathered) (slot : Slot) : Option String → Except UsageError Gathered
  | none => .error (.missingValue slot.label)
  | some v =>
    if g.holds slot then .error (.repeated slot.label)
    else match slot with
      | .input => do pure { g with input := some (← pathValue slot v) }
      | .output => do pure { g with output := some (← pathValue slot v) }
      | .config => do pure { g with config := some (← pathValue slot v) }
      | .coarse => do pure { g with coarse := some (← tuningValue slot v) }
      | .fine => do pure { g with fine := some (← tuningValue slot v) }
      | .block => do pure { g with block := some (← sizeValue slot v) }

structure Waiting where
  slot : Slot
  value : Option String

structure State where
  got : Gathered := {}
  waiting : Option Waiting := none
  positionals : Nat := 0
  escaped : Bool := false

/-- Why reading stops early: an error, or a request for help or the version. -/
inductive Stop where
  | usage (e : UsageError)
  | answer (r : Request)

def State.settle (s : State) : Except Stop State :=
  match s.waiting with
  | none => .ok s
  | some w => match s.got.assign w.slot w.value with
    | .ok g => .ok { s with got := g, waiting := none }
    | .error e => .error (.usage e)

/-- Fails with `e`; the waiting slot is dropped unchecked. -/
def State.refuse (_ : State) (e : UsageError) : Except Stop State :=
  .error (.usage e)

/-- A flag: the waiting slot is completed first; help and the version stop the reading, and
a flag given twice is an error. -/
def State.raise (s : State) (f : Flag) : Except Stop State := do
  let s ← s.settle
  match f with
  | .help => .error (.answer .help)
  | .version => .error (.answer .version)
  | .float =>
    if s.got.float then .error (.usage (.repeated f.label))
    else pure { s with got := { s.got with float := true } }
  | .verbose =>
    if s.got.verbose then .error (.usage (.repeated f.label))
    else pure { s with got := { s.got with verbose := true } }

/-- A positional argument: the first two are the input and the output. -/
def State.positional (s : State) (arg : String) : Except Stop State := do
  if s.positionals < 2 then
    let s ← s.settle
    let slot := if s.positionals == 0 then Slot.input else Slot.output
    pure { s with waiting := some ⟨slot, some arg⟩, positionals := s.positionals + 1 }
  else s.refuse (.unexpected arg)

/-- A long option `--name` or `--name=value` (`body` is the text after the dashes). -/
def State.long (s : State) (body : String) : Except Stop State :=
  let name := (body.splitOn "=").headD ""
  let value := if name.length < body.length then some (body.drop (name.length + 1)).toString else none
  match longOption name, value with
  | some (.inl slot), some v => do
    let s ← s.settle
    match s.got.assign slot (some v) with
    | .ok g => pure { s with got := g }
    | .error e => .error (.usage e)
  | some (.inl slot), none => do
    let s ← s.settle
    pure { s with waiting := some ⟨slot, none⟩ }
  | some (.inr f), some v => s.refuse (.unexpectedValue v f.label)
  | some (.inr f), none => s.raise f
  | none, _ => s.refuse (.unexpected ("--" ++ name))

/-- A run of short flags. -/
def State.short (s : State) : List Char → Except Stop State
  | [] => .ok s
  | c :: cs => match shortFlag c with
    | some f => do (← s.raise f).short cs
    | none => s.refuse (.unexpected (String.ofList ['-', c]))

/-- Reads one argument. A value given as its own argument is only kept: it is checked when
the next argument is taken or at the end, so an unknown argument after it is reported
instead of a bad value, and `--` leaves it waiting too. -/
def State.step (s : State) (arg : String) : Except Stop State :=
  let hyphenValue := match s.waiting with
    | some ⟨slot, none⟩ => slot.takesHyphen
    | _ => false
  if s.escaped then s.positional arg
  else if hyphenValue then
    -- the waiting option takes this argument whatever it looks like
    match s.waiting with
    | some w => .ok { s with waiting := some { w with value := some arg } }
    | none => s.positional arg
  else if arg == "--" then .ok { s with escaped := true }
  else if arg.startsWith "--" then s.long (arg.drop 2).toString
  else if arg.startsWith "-" && arg != "-" then s.short (arg.drop 1).toString.toList
  else match s.waiting with
    | some ⟨slot, none⟩ => .ok { s with waiting := some ⟨slot, some arg⟩ }
    | _ => s.positional arg

/-- The options once every argument is read: the last slot completed, both positionals
present, the block size defaulted. -/
def State.finish (s : State) : Except Stop Options := do
  let s ← s.settle
  match s.got.input, s.got.output with
  | some i, some o =>
    pure ⟨i, o, s.got.coarse, s.got.fine, s.got.block.getD 1024, s.got.config, s.got.float,
      s.got.verbose⟩
  | i, o =>
    let missing := (if i.isNone then ["<INPUT>"] else []) ++ (if o.isNone then ["<OUTPUT>"] else [])
    .error (.usage (.missingArguments missing))

/-- Reads the command line (without the program name) into a request, as the parser derived for
`Cli` does (cli.rs:12-42). -/
def read (args : List String) : Except UsageError Request :=
  match args.foldlM State.step {} >>= State.finish with
  | .ok o => .ok (.run o)
  | .error (.answer r) => .ok r
  | .error (.usage e) => .error e

end PhaseVocoder.Command
