import PhaseVocoder.Error
import PhaseVocoder.Fault

/-!
# Tuning: `PshifterProps` (effect/props.rs:9-80)

A tuning is a shift in semitones (`coarse`, in `[-12, 12]`) and cents (`fine`, in
`[-50, 50]`). The fields hold any 32-bit value, since a tuning may be written field by field;
the setters, `make` and `validate` enforce the ranges, and report the coarse field before the
fine one. `totalCents` is `100 · coarse + fine` in signed 32-bit arithmetic, which faults when
a field far outside its range makes it overflow.
-/

namespace PhaseVocoder

/-- Semitones and cents of a pitch shift. -/
structure Tuning where
  coarse : Int32
  fine : Int32
deriving DecidableEq, Repr

namespace Tuning

def default : Tuning := ⟨12, 0⟩

instance : Inhabited Tuning := ⟨default⟩

def coarseInRange (n : Int32) : Bool := -12 ≤ n.toInt && n.toInt ≤ 12

def fineInRange (n : Int32) : Bool := -50 ≤ n.toInt && n.toInt ≤ 50

/-- Replaces the coarse field, or reports it out of range and keeps the tuning (`set_coarse_tune`,
effect/props.rs:37-43); `setFine` is the same for the fine field. -/
def setCoarse (t : Tuning) (n : Int32) : Except ShiftError Tuning :=
  if coarseInRange n then .ok { t with coarse := n } else .error (.coarseOutOfRange n)

def setFine (t : Tuning) (n : Int32) : Except ShiftError Tuning :=
  if fineInRange n then .ok { t with fine := n } else .error (.fineOutOfRange n)

/-- The tuning with both fields checked, coarse first. -/
def make (coarse fine : Int32) : Except ShiftError Tuning := do
  let t ← default.setCoarse coarse
  t.setFine fine

/-- Checks both fields as `make` does (effect/props.rs:60-62). -/
def validate (t : Tuning) : Except ShiftError Unit :=
  (make t.coarse t.fine).map fun _ => ()

/-- `100 · coarse + fine` in signed 32-bit arithmetic (effect/props.rs:54-57). -/
def totalCents (t : Tuning) : Except Fault Int := do
  let c ← Word.i32.mul t.coarse.toInt 100
  Word.i32.add c t.fine.toInt

/-- How a configuration text is read into a tuning: the JSON library's deserialisation of the
two fields (`serde_json::from_str`), which fails with the library's error. -/
abbrev Decoder := String → Except Config.ConfigError Tuning

/-- The tuning a configuration text describes, read by `decode`, with its ranges checked
(`PshifterProps::from_json_file`, effect/props.rs:64-70). -/
def ofConfig (decode : Decoder) (text : String) : Except ShiftError Tuning := do
  let t ← (decode text).mapError ShiftError.config
  t.validate
  pure t

def toJson (t : Tuning) : String :=
  "\x7b\"coarse_tune\":" ++ toString t.coarse.toInt ++ ",\"fine_tune\":" ++ toString t.fine.toInt ++ "\x7d"

end Tuning

end PhaseVocoder
