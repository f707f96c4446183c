import PhaseVocoder.Config.Reader
import PhaseVocoder.Tuning

/-!
# Reading a tuning from configuration text

The program reads its configuration with a JSON library, which `Tuning.ofConfig` and the
command take as a parameter (`Tuning.Decoder`). This module is the reading they are run with,
`decodeTuning`, written after that library's derived reading of the two fields
(`#[serde(default)]` on `PshifterProps`, effect/props.rs:21-26).

A configuration is a JSON object with the optional integer fields `coarse_tune` and
`fine_tune`, or an array of up to two integers in that order. Missing fields keep their
defaults (12 and 0), other keys are skipped whatever their value, and a key given twice is
refused. After the value only blanks may follow.

A value that does not fit its field is described by what it is (`floating point`, `string`,
`boolean`, …) and placed just after it, or at its bracket for an array or object. A key given
twice is placed after the whole object has been read as far as its closing brace.
-/

namespace PhaseVocoder.Config

/-- Describes the value under the index as one that does not fit `exp`, reading scalars
to their end; the failure is placed where reading stopped. -/
def mismatch {α : Type} (exp : Expected) : Reader α := placePending do
  match ← peekOrNull with
  | 110 => eat; expectWord [117, 108, 108]; failPending (.invalidType .null exp)
  | 116 => eat; expectWord [114, 117, 101]; failPending (.invalidType (.bool true) exp)
  | 102 => eat; expectWord [97, 108, 115, 101]; failPending (.invalidType (.bool false) exp)
  | 45 => eat; let n ← readNumber false; failPending (.invalidType n.unexpected exp)
  | 34 => eat; let s ← readString; failPending (.invalidType (.str s) exp)
  | 91 => failPending (.invalidType .seq exp)
  | 123 => failPending (.invalidType .map exp)
  | b =>
    if isDigit b then do
      let n ← readNumber true
      failPending (.invalidType n.unexpected exp)
    else failAhead .expectedValue

/-- A number as a signed 32-bit integer: integers out of range and any fraction or exponent
are refused. -/
def Number.toInt32 : Number → Except Cause Int32
  | .unsigned n =>
    if n ≤ 2147483647 then .ok (Int32.ofInt n) else .error (.invalidValue (.unsigned n) .i32)
  | .signed n =>
    if -2147483648 ≤ n ∧ n ≤ 2147483647 then .ok (Int32.ofInt n)
    else .error (.invalidValue (.signed n) .i32)
  | .double x => .error (.invalidType (.float x) .i32)

def readInt32 : Reader Int32 := placePending do
  let n ← match ← skipBlanks with
    | none => failAhead .eofValue
    | some 45 => do eat; readNumber false
    | some b => if isDigit b then readNumber true else mismatch .i32
  match n.toInt32 with
  | .ok v => pure v
  | .error c => failPending c

def readColon : Reader Unit := do
  match ← skipBlanks with
  | some 58 => eat
  | some _ => failAhead .expectedColon
  | none => failAhead .eofObject

/-- The next key of an object, or `none` at its closing brace; `first` tells whether a comma
must come before it. -/
def readKey (first : Bool) : Reader (Option String) := do
  let b ← match ← skipBlanks with
    | some 125 => return none
    | some 44 => if first then pure (some 44) else do eat; skipBlanks
    | some b => if first then pure (some b) else failAhead .expectedObjectCommaOrEnd
    | none => failAhead .eofObject
  match b with
  | some 34 => eat; some <$> readString
  | some 125 => failAhead .trailingComma
  | some _ => failAhead .keyMustBeString
  | none => failAhead .eofValue

/-- The fields of a tuning object, after its opening brace and up to its closing one. -/
def readFields : Reader Tuning := do
  let mut coarse : Option Int32 := none
  let mut fine : Option Int32 := none
  let mut first := true
  for _ in [0:← budget] do
    match ← readKey first with
    | none => break
    | some k =>
      first := false
      if k == "coarse_tune" then
        if coarse.isSome then failPending (.duplicateField "coarse_tune")
        readColon
        coarse := some (← readInt32)
      else if k == "fine_tune" then
        if fine.isSome then failPending (.duplicateField "fine_tune")
        readColon
        fine := some (← readInt32)
      else
        readColon
        skipValue
  pure ⟨coarse.getD Tuning.default.coarse, fine.getD Tuning.default.fine⟩

def readElement (first : Bool) : Reader (Option Int32) := do
  let b ← match ← skipBlanks with
    | some 93 => return none
    | some 44 => if first then pure (some 44) else do eat; skipBlanks
    | some b => if first then pure (some b) else failAhead .expectedListCommaOrEnd
    | none => failAhead .eofList
  match b with
  | some 93 => failAhead .trailingComma
  | some _ => some <$> readInt32
  | none => failAhead .eofValue

/-- The elements of a tuning array, after its opening bracket: at most two are read. -/
def readElements : Reader Tuning := do
  let c ← readElement true
  let f ← readElement c.isNone
  pure ⟨c.getD Tuning.default.coarse, f.getD Tuning.default.fine⟩

def closeObject : Reader Unit := do
  match ← skipBlanks with
  | some 125 => eat
  | some 44 => failAhead .trailingComma
  | some _ => failAhead .trailingCharacters
  | none => failAhead .eofObject

def closeArray : Reader Unit := do
  match ← skipBlanks with
  | some 93 => eat
  | some 44 =>
    eat
    match ← skipBlanks with
    | some 93 => failAhead .trailingComma
    | _ => failAhead .trailingCharacters
  | some _ => failAhead .trailingCharacters
  | none => failAhead .eofList

/-- Reads a container's body and then its closing mark, even after a failed body; a failed
body is reported before a failed close. -/
def bodyThenClose {α : Type} (body : Reader α) (close : Reader Unit) : Reader α := do
  let r ← attempt body
  let c ← attempt close
  match r, c with
  | .ok v, .ok () => pure v
  | .error f, _ => throw f
  | .ok _, .error f => throw f

def readTuning : Reader Tuning := placePending do
  match ← skipBlanks with
  | none => failAhead .eofValue
  | some 91 => eat; bodyThenClose readElements closeArray
  | some 123 => eat; bodyThenClose readFields closeObject
  | some _ => mismatch .tuning

/-- Reads a whole configuration text: a tuning and then only blanks. -/
def readDocument : Reader Tuning := do
  let t ← readTuning
  match ← skipBlanks with
  | some _ => failAhead .trailingCharacters
  | none => pure t

/-- Reads a configuration text as the JSON library does: a tuning object or array, then only
blanks. -/
def decodeTuning : Tuning.Decoder := fun text => readDocument.run text.toUTF8

end PhaseVocoder.Config
