import PhaseVocoder.Decimal.Shortest

/-!
# Decimal text of a double

The text of a finite double is its shortest digits laid out by a `Layout`: positional when
the decimal point falls within a window around the digits, otherwise one digit, a point,
the rest and an exponent. The one layout used here, `Layout.standard`, writes `100.0`,
`0.001`, `1e+16` and `1.5e-7`: positional while the point is at most sixteen places right of
the first digit and at most four zeros follow the point, a `.0` after a whole number, and an
exponent that always carries its sign.
-/

namespace PhaseVocoder.Decimal

/-- Where positional notation ends and how the exponent is written. -/
structure Layout where
  /-- Positional while the digit count before the point is at most this. -/
  maxWhole : Nat
  /-- Positional for values below one while fewer than this many zeros follow the point. -/
  maxLeadingZeros : Nat
  /-- The mark between significand and exponent. -/
  exponentMark : String
  /-- Whether a whole number in positional form keeps a `.0`. -/
  pointZero : Bool
  /-- Whether a positive exponent is written with `+`. -/
  plusExponent : Bool

/-- Sixteen places before the point, four zeros after it, `e` with a signed exponent, `.0`
kept. -/
def Layout.standard : Layout := ⟨16, 5, "e", true, true⟩

def digitString (n : Nat) : String :=
  String.ofList (Nat.toDigits 10 n)

/-- Text of a nonnegative `Scientific` under `layout`. -/
def Scientific.render (layout : Layout) (s : Scientific) : String :=
  if s.digits = 0 then (if layout.pointZero then "0.0" else "0")
  else
    let ds := digitString s.digits
    let len : Int := ds.length
    -- the value is 0.ds × 10^point
    let point := len + s.exponent
    if 0 ≤ s.exponent ∧ point ≤ layout.maxWhole then
      ds ++ String.ofList (List.replicate s.exponent.toNat '0') ++ (if layout.pointZero then ".0" else "")
    else if 0 < point ∧ point ≤ layout.maxWhole then
      String.ofList (ds.toList.take point.toNat) ++ "." ++ String.ofList (ds.toList.drop point.toNat)
    else if -(layout.maxLeadingZeros : Int) < point ∧ point ≤ 0 then
      "0." ++ String.ofList (List.replicate (-point).toNat '0') ++ ds
    else
      let mant := match ds.toList with
        | [d] => String.singleton d
        | d :: rest => String.singleton d ++ "." ++ String.ofList rest
        | [] => ""
      let sign := if layout.plusExponent && point - 1 > 0 then "+" else ""
      mant ++ layout.exponentMark ++ sign ++ toString (point - 1)

/-- The text of a finite double in the standard layout, `-` before a negative value
(negative zero included); `none` for infinities and NaN. -/
def render (x : Float) : Option String :=
  (shortest x).map fun (neg, s) => (if neg then "-" else "") ++ s.render Layout.standard

end PhaseVocoder.Decimal
