import PhaseVocoder.Config.Error

/-!
# Reading JSON configuration text

A `Reader` walks the bytes of a JSON text with an index. Its failures are `Fail`s: either
already placed at a line and column, or `pending` causes that the caller places where the
reader stands when it hands the failure on (a value that does not fit its field is described
when it has been read, and placed at the end of the enclosing value). A failure keeps the
index where it happened, so a caller can still read past it before choosing which failure to
report.

Places follow two rules. A cause found at the byte under the index is placed one byte
further (`failAhead`): the column counts that byte. A cause found after reading is placed at
the index (`failHere`). Columns count bytes from the last line feed.

Numbers follow the reading of JSON into 64-bit words: digits accumulate in an unsigned
64-bit significand; a significand that would overflow switches to a binary64 value built
from the digits read so far and a power of ten, and the remaining digits only scale it.
-/

namespace PhaseVocoder.Config

/-- A failure, placed or still to be placed. -/
inductive Fail where
  | placed (e : ConfigError)
  | pending (c : Cause)

/-- Reading state: the text is read-only, the index moves, and failures keep the index. -/
abbrev Reader := ReaderT ByteArray (EStateM Fail Nat)

def positionAt (src : ByteArray) (i : Nat) : Nat × Nat :=
  let pre := (src.extract 0 i).toList
  let lineStart := match (pre.zipIdx.filter (fun (b, _) => b == 10)).getLast? with
    | some (_, j) => j + 1
    | none => 0
  (1 + pre.count 10, i - lineStart)

/-- Fails with `c` placed at the index. -/
def failHere {α : Type} (c : Cause) : Reader α := do
  let src ← read
  let i ← get
  let (l, col) := positionAt src i
  throw (.placed ⟨c, l, col⟩)

/-- Fails with `c` placed one byte past the index (the byte under it counted). -/
def failAhead {α : Type} (c : Cause) : Reader α := do
  let src ← read
  let i ← get
  let (l, col) := positionAt src (min (i + 1) src.size)
  throw (.placed ⟨c, l, col⟩)

def failPending {α : Type} (c : Cause) : Reader α :=
  throw (.pending c)

/-- Runs `x`, placing a pending failure at the index where `x` stopped. -/
def placePending {α : Type} (x : Reader α) : Reader α :=
  tryCatch x fun
    | .pending c => failHere c
    | f => throw f

/-- Runs `x` and returns its outcome; the index stays where `x` left it. -/
def attempt {α : Type} (x : Reader α) : Reader (Except Fail α) :=
  tryCatch (Except.ok <$> x) fun f => pure (.error f)

def peek : Reader (Option UInt8) := do
  let src ← read
  let i ← get
  pure (if h : i < src.size then some src[i] else none)

def peekOrNull : Reader UInt8 := do
  pure ((← peek).getD 0)

def eat : Reader Unit := modify (· + 1)

def next : Reader (Option UInt8) := do
  let b ← peek
  if b.isSome then eat
  pure b

/-- The number of bytes of the text: a bound on every loop of the reader. -/
def budget : Reader Nat := do
  pure ((← read).size + 1)

def isDigit (b : UInt8) : Bool := 48 ≤ b && b ≤ 57

/-- Skips blanks (space, line feed, tab, carriage return) and returns the next byte. -/
def skipBlanks : Reader (Option UInt8) := do
  for _ in [0:← budget] do
    match ← peek with
    | some b => if b == 32 || b == 10 || b == 9 || b == 13 then eat else break
    | none => break
  peek

def skipDigits : Reader Unit := do
  for _ in [0:← budget] do
    if isDigit (← peekOrNull) then eat else break

def expectWord (rest : List UInt8) : Reader Unit := do
  for b in rest do
    match ← next with
    | none => failHere .eofValue
    | some c => if c != b then failHere .expectedIdent

/-! ## Numbers -/

/-- A number as read: an unsigned or signed 64-bit integer, or a binary64 value. -/
inductive Number where
  | unsigned (n : Nat)
  | signed (n : Int)
  | double (x : Float)

def Number.unexpected : Number → Unexpected
  | .unsigned n => .unsigned n
  | .signed n => .signed n
  | .double x => .float x

def overflows (acc d max : Nat) : Bool :=
  acc ≥ max / 10 && (acc > max / 10 || d > max % 10)

def u64Max : Nat := 18446744073709551615

def i32Max : Nat := 2147483647

def clampI32 (n : Int) : Int := max (-2147483648) (min 2147483647 n)

/-- `significand · 10^exponent` in binary64: one multiplication or division by a power of ten
from the table `10^0 … 10^308`, after dividing by `10^308` while the exponent is below the
table. A product that overflows is out of range; so is any exponent above the table unless
the significand is zero. -/
def fromParts (positive : Bool) (significand : Nat) (exponent : Int) : Reader Float := do
  let mut f : Float := Float.ofNat significand
  let mut e := exponent
  for _ in [0:8] do
    if e.natAbs ≤ 308 then
      let pow := Float.ofScientific 1 false e.natAbs
      if e ≥ 0 then
        f := f * pow
        if f.isInf then failHere .numberOutOfRange
      else
        f := f / pow
      break
    else
      if f == 0 then break
      if e ≥ 0 then failHere .numberOutOfRange
      f := f / Float.ofScientific 1 false 308
      e := e + 308
  pure (if positive then f else -f)

/-- Reads the digits of an exponent after `e` or `E`; the significand is already read. -/
def readExponent (positive : Bool) (significand : Nat) (start : Int) : Reader Float := do
  eat
  let positiveExp ← match ← peekOrNull with
    | 43 => do eat; pure true
    | 45 => do eat; pure false
    | _ => pure true
  let first ← match ← next with
    | none => failHere .eofValue
    | some c => if isDigit c then pure (c - 48).toNat else failHere .invalidNumber
  let mut exp := first
  for _ in [0:← budget] do
    let c ← peekOrNull
    if !isDigit c then break
    eat
    let d := (c - 48).toNat
    if overflows exp d i32Max then
      -- an exponent beyond 32 bits: infinity is refused, anything else is a zero
      if significand != 0 && positiveExp then failHere .numberOutOfRange
      skipDigits
      return (if positive then 0 else -0)
    exp := exp * 10 + d
  let final := if positiveExp then clampI32 (start + exp) else clampI32 (start - exp)
  fromParts positive significand final

/-- Reads the fraction after the point, then an optional exponent. At least one digit must
follow the point. Digits that would overflow the significand are skipped. -/
def readFraction (positive : Bool) (significand : Nat) (before : Int) : Reader Float := do
  eat
  let mut sig := significand
  let mut after : Int := 0
  for _ in [0:← budget] do
    let c ← peekOrNull
    if !isDigit c then break
    let d := (c - 48).toNat
    if overflows sig d u64Max then
      skipDigits
      match ← peekOrNull with
      | 101 | 69 => return ← readExponent positive sig (before + after)
      | _ => return ← fromParts positive sig (before + after)
    eat
    sig := sig * 10 + d
    after := after - 1
  if after == 0 then
    match ← peek with
    | some _ => failAhead .invalidNumber
    | none => failAhead .eofValue
  match ← peekOrNull with
  | 101 | 69 => readExponent positive sig (before + after)
  | _ => fromParts positive sig (before + after)

/-- Reads the digits of an integer part too long for the significand: each one only raises
the decimal exponent. -/
def readLongInteger (positive : Bool) (significand : Nat) : Reader Float := do
  let mut exponent : Int := 0
  for _ in [0:← budget] do
    match ← peekOrNull with
    | 46 => return ← readFraction positive significand exponent
    | 101 | 69 => return ← readExponent positive significand exponent
    | c =>
      if isDigit c then
        eat
        exponent := exponent + 1
      else break
  fromParts positive significand exponent

/-- The number after its integer part: a fraction, an exponent, or an integer. A negative
integer is a signed word unless it is zero or below the signed range, when it becomes a
binary64 value (so `-0` is negative zero). -/
def finishNumber (positive : Bool) (significand : Nat) : Reader Number := do
  match ← peekOrNull with
  | 46 => return .double (← readFraction positive significand 0)
  | 101 | 69 => return .double (← readExponent positive significand 0)
  | _ =>
    if positive then return .unsigned significand
    else
      let neg : Nat := (u64Max + 1 - significand) % (u64Max + 1)
      if neg < 9223372036854775808 then return .double (-(Float.ofNat significand))
      else return .signed ((neg : Int) - (u64Max + 1 : Nat))

/-- Reads a number after its optional minus sign. One leading zero at most. -/
def readNumber (positive : Bool) : Reader Number := do
  match ← next with
  | none => failHere .eofValue
  | some 48 =>
    if isDigit (← peekOrNull) then failAhead .invalidNumber
    finishNumber positive 0
  | some c =>
    if !isDigit c then failHere .invalidNumber
    let mut sig := (c - 48).toNat
    for _ in [0:← budget] do
      let c ← peekOrNull
      if !isDigit c then break
      let d := (c - 48).toNat
      if overflows sig d u64Max then
        return .double (← readLongInteger positive sig)
      eat
      sig := sig * 10 + d
    finishNumber positive sig

/-! ## Strings -/

def hexValue (b : UInt8) : Option Nat :=
  if 48 ≤ b && b ≤ 57 then some (b - 48).toNat
  else if 97 ≤ b && b ≤ 102 then some (b - 87).toNat
  else if 65 ≤ b && b ≤ 70 then some (b - 55).toNat
  else none

/-- Reads the four hex digits of a `\u` escape. Too few bytes left is the end of the text;
a non-hex digit among the four is an invalid escape, placed after the four. -/
def readHex4 : Reader Nat := do
  let src ← read
  let i ← get
  if i + 4 > src.size then
    set src.size
    failHere .eofString
  set (i + 4)
  let ds := [src.get! i, src.get! (i + 1), src.get! (i + 2), src.get! (i + 3)].map hexValue
  match ds with
  | [some a, some b, some c, some d] => pure (((a * 16 + b) * 16 + c) * 16 + d)
  | _ => failHere .invalidEscape

def utf8Bytes (n : Nat) : List UInt8 :=
  (String.singleton (Char.ofNat n)).toUTF8.toList

/-- Reads a `\u` escape (after the `u`): a code point outside the surrogates, or a leading
surrogate followed by `\u` and a trailing one. -/
def readUnicodeEscape : Reader (List UInt8) := do
  let n ← readHex4
  if 0xDC00 ≤ n && n ≤ 0xDFFF then failHere .loneLeadingSurrogate
  if n < 0xD800 || n > 0xDBFF then return utf8Bytes n
  match ← peek with
  | none => failHere .eofString
  | some b => if b == 92 then eat else do eat; failHere .unexpectedEndOfHexEscape
  match ← peek with
  | none => failHere .eofString
  | some b => if b == 117 then eat else do eat; failHere .unexpectedEndOfHexEscape
  let n2 ← readHex4
  if n2 < 0xDC00 || n2 > 0xDFFF then failHere .loneLeadingSurrogate
  return utf8Bytes ((((n - 0xD800) <<< 10) ||| (n2 - 0xDC00)) + 0x10000)

def readEscape : Reader (List UInt8) := do
  match ← next with
  | none => failHere .eofString
  | some 34 => pure [34]
  | some 92 => pure [92]
  | some 47 => pure [47]
  | some 98 => pure [8]
  | some 102 => pure [12]
  | some 110 => pure [10]
  | some 114 => pure [13]
  | some 116 => pure [9]
  | some 117 => readUnicodeEscape
  | some _ => failHere .invalidEscape

/-- Reads a string after its opening quote, decoding escapes. A control byte is refused and
placed after itself. -/
def readString : Reader String := do
  let mut out : Array UInt8 := #[]
  for _ in [0:← budget] do
    match ← peek with
    | none => failHere .eofString
    | some 34 =>
      eat
      return (String.fromUTF8? (ByteArray.mk out)).getD ""
    | some 92 =>
      eat
      out := out ++ (← readEscape).toArray
    | some b =>
      eat
      if b < 32 then failHere .controlCharacter
      out := out.push b
  failHere .eofString

def skipEscape : Reader Unit := do
  match ← next with
  | none => failHere .eofString
  | some c =>
    if c == 34 || c == 92 || c == 47 || c == 98 || c == 102 || c == 110 || c == 114 || c == 116 then
      pure ()
    else if c == 117 then
      discard readHex4
    else failHere .invalidEscape

/-- Skips a string after its opening quote. A control byte is refused and placed before
itself. -/
def skipString : Reader Unit := do
  for _ in [0:← budget] do
    match ← peek with
    | none => failHere .eofString
    | some 34 => eat; return
    | some 92 => eat; skipEscape
    | some b => if b < 32 then failHere .controlCharacter else eat
  failHere .eofString

/-! ## Skipping a value -/

def skipNumber : Reader Unit := do
  match (← next).getD 0 with
  | 48 => if isDigit (← peekOrNull) then failAhead .invalidNumber
  | c => if isDigit c then skipDigits else failHere .invalidNumber
  if (← peekOrNull) == 46 then
    eat
    if !isDigit (← peekOrNull) then failAhead .invalidNumber
    skipDigits
  let c ← peekOrNull
  if c == 101 || c == 69 then
    eat
    let s ← peekOrNull
    if s == 43 || s == 45 then eat
    if !isDigit ((← next).getD 0) then failHere .invalidNumber
    skipDigits

/-- Skips one scalar value starting at `b`, or opens a container: `some` with its bracket. -/
def skipScalarOrOpen (b : UInt8) : Reader (Option UInt8) := do
  match b with
  | 110 => eat; expectWord [117, 108, 108]; pure none
  | 116 => eat; expectWord [114, 117, 101]; pure none
  | 102 => eat; expectWord [97, 108, 115, 101]; pure none
  | 45 => eat; skipNumber; pure none
  | 34 => eat; skipString; pure none
  | 91 => eat; pure (some 91)
  | 123 => eat; pure (some 123)
  | _ => if isDigit b then do skipNumber; pure none else failAhead .expectedValue

/-- Skips a whole value of any shape, keeping the open brackets on a stack rather than
recursing. Every step reads at least one byte. -/
def skipValue : Reader Unit := do
  let mut stack : List UInt8 := []
  let mut enclosing : Option UInt8 := none
  for _ in [0:← budget] do
    let b ← match ← skipBlanks with
      | some b => pure b
      | none => failAhead .eofValue
    let opened ← skipScalarOrOpen b
    if let some _ := opened then
      if let some e := enclosing then stack := e :: stack
      enclosing := none
    -- the frame to continue in, and whether a comma may come next
    let (acceptComma, frame) ← match opened with
      | some f => pure (false, f)
      | none => match enclosing with
        | some f => pure (true, f)
        | none => match stack with
          | f :: rest => do stack := rest; pure (true, f)
          | [] => return
    let mut accept := acceptComma
    let mut cur := frame
    let mut done := false
    for _ in [0:← budget] do
      match ← skipBlanks with
      | some 44 =>
        if accept then
          eat
          break
        else break
      | some c =>
        if (c == 93 && cur == 91) || (c == 125 && cur == 123) then
          eat
          match stack with
          | f :: rest =>
            stack := rest
            cur := f
            accept := true
          | [] =>
            done := true
            break
        else if accept then
          failAhead (if cur == 91 then .expectedListCommaOrEnd else .expectedObjectCommaOrEnd)
        else break
      | none => failAhead (if cur == 91 then .eofList else .eofObject)
    if done then return
    if cur == 123 then
      match ← skipBlanks with
      | some 34 => eat
      | some _ => failAhead .keyMustBeString
      | none => failAhead .eofObject
      skipString
      match ← skipBlanks with
      | some 58 => eat
      | some _ => failAhead .expectedColon
      | none => failAhead .eofObject
    enclosing := some cur

def Reader.run {α : Type} (x : Reader α) (src : ByteArray) : Except ConfigError α :=
  match (x src).run 0 with
  | .ok a _ => .ok a
  | .error (.placed e) _ => .error e
  | .error (.pending c) i =>
    let (l, col) := positionAt src i
    .error ⟨c, l, col⟩

end PhaseVocoder.Config
