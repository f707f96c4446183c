import PhaseVocoder.Decimal.Text
import PhaseVocoder.Text.Graphic
import PhaseVocoder.Text.GraphemeExtend

/-!
# Errors of the tuning configuration reader

A configuration file is JSON. Reading it fails with a `ConfigError`: a cause and the line and
column where the reader stood, the column counting bytes from the start of the line. The
causes split into syntax faults of the text and mismatches between a well-formed value and
the field that receives it; `ConfigError.message` spells both.
-/

namespace PhaseVocoder.Config

/-- A JSON value as it is described when it does not fit its field. -/
inductive Unexpected where
  | bool (b : Bool)
  | unsigned (n : Nat)
  | signed (n : Int)
  | float (x : Float)
  | str (s : String)
  | null
  | seq
  | map

inductive Expected where
  /-- A signed 32-bit integer. -/
  | i32
  /-- The tuning record itself. -/
  | tuning

/-- Why reading stopped. -/
inductive Cause where
  | eofValue
  | eofObject
  | eofList
  | eofString
  | expectedColon
  | expectedListCommaOrEnd
  | expectedObjectCommaOrEnd
  | expectedIdent
  | expectedValue
  | invalidEscape
  | invalidNumber
  | numberOutOfRange
  | controlCharacter
  | keyMustBeString
  | loneLeadingSurrogate
  | unexpectedEndOfHexEscape
  | trailingComma
  | trailingCharacters
  | invalidType (found : Unexpected) (expected : Expected)
  | invalidValue (found : Unexpected) (expected : Expected)
  | duplicateField (name : String)

/-- A reading failure at a line (from one) and a byte column. -/
structure ConfigError where
  cause : Cause
  line : Nat
  column : Nat

def hexDigits (n : Nat) : String :=
  String.ofList (Nat.toDigits 16 n)

/-- Characters written as a `\u{…}` escape when a text is quoted for a message: those that
would attach to the character before them, and those that are not graphic (controls, format
characters, private-use and unassigned code points, separators and spaces but U+0020). -/
def escapedInQuote (c : Char) : Bool :=
  Text.extendsGrapheme c || !Text.isGraphic c

def quoteChar (c : Char) : String :=
  match c with
  | '"' => "\\\""
  | '\\' => "\\\\"
  | '\n' => "\\n"
  | '\r' => "\\r"
  | '\t' => "\\t"
  | '\x00' => "\\0"
  | c => if escapedInQuote c then "\\u\x7b" ++ hexDigits c.toNat ++ "\x7d" else String.singleton c

/-- A text in double quotes with quotes, backslashes and invisible characters escaped. -/
def quote (s : String) : String :=
  "\"" ++ String.join (s.toList.map quoteChar) ++ "\""

def Unexpected.describe : Unexpected → String
  | .bool b => "boolean `" ++ toString b ++ "`"
  | .unsigned n => "integer `" ++ toString n ++ "`"
  | .signed n => "integer `" ++ toString n ++ "`"
  | .float x => "floating point `" ++ (Decimal.render x).getD "NaN" ++ "`"
  | .str s => "string " ++ quote s
  | .null => "null"
  | .seq => "sequence"
  | .map => "map"

def Expected.describe : Expected → String
  | .i32 => "i32"
  | .tuning => "struct PshifterProps"

def Cause.describe : Cause → String
  | .eofValue => "EOF while parsing a value"
  | .eofObject => "EOF while parsing an object"
  | .eofList => "EOF while parsing a list"
  | .eofString => "EOF while parsing a string"
  | .expectedColon => "expected `:`"
  | .expectedListCommaOrEnd => "expected `,` or `]`"
  | .expectedObjectCommaOrEnd => "expected `,` or `\x7d`"
  | .expectedIdent => "expected ident"
  | .expectedValue => "expected value"
  | .invalidEscape => "invalid escape"
  | .invalidNumber => "invalid number"
  | .numberOutOfRange => "number out of range"
  | .controlCharacter => "control character (\\u0000-\\u001F) found while parsing a string"
  | .keyMustBeString => "key must be a string"
  | .loneLeadingSurrogate => "lone leading surrogate in hex escape"
  | .unexpectedEndOfHexEscape => "unexpected end of hex escape"
  | .trailingComma => "trailing comma"
  | .trailingCharacters => "trailing characters"
  | .invalidType u e => "invalid type: " ++ u.describe ++ ", expected " ++ e.describe
  | .invalidValue u e => "invalid value: " ++ u.describe ++ ", expected " ++ e.describe
  | .duplicateField n => "duplicate field `" ++ n ++ "`"

/-- The full text: the cause and where it was met. -/
def ConfigError.message (e : ConfigError) : String :=
  e.cause.describe ++ " at line " ++ toString e.line ++ " column " ++ toString e.column

end PhaseVocoder.Config
