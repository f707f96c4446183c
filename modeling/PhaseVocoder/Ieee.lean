/-!
# Binary floating point beyond core's operations

Core gives `Float` and `Float32` a logical model (`Float.Model`, `UnpackedFloat`) for the
basic operations. This module adds, on the same model, the conversions and the magnitude
function that the signal path needs:

* `toSingle` rounds a double to the nearest single (ties to even), `toDouble` widens
  exactly;
* `truncInt64` and `truncSingleInt16` truncate toward zero and clamp to a word range,
  sending NaN to zero;
* `hypot` is `√(x² + y²)` as the C library computes it: a rounded square root and one
  correction step, within one unit in the last place but not always the nearest double.

Each is a plain definition over the model, so statements about them can be proved; at run
time the model's bit-level code is what executes.
-/

namespace PhaseVocoder.Ieee

open Float.Model (Format UnpackedFloat)

/-- The quiet NaN with a clear sign bit, the one that text parsers produce. -/
def nan : Float := Float.ofBits 0x7FF8000000000000

def inf : Float := Float.ofBits 0x7FF0000000000000

def negInf : Float := Float.ofBits 0xFFF0000000000000

/-- Re-rounds an unpacked value into `spec`. Finite values go through the model's `round`,
which is exact when the value already fits; specials are kept. -/
def reformat (spec : Format) : UnpackedFloat → UnpackedFloat
  | .finite s m e _ => UnpackedFloat.round spec s m e
  | u => u

/-- The single nearest to a double, ties to even, overflowing to infinity. -/
def toSingle (x : Float) : Float32 :=
  Float32.ofModel (Float32.Model.pack (reformat Format.binary32 x.toModel.unpack))

/-- A single as a double; every single is a double, so nothing is rounded. -/
def toDouble (x : Float32) : Float :=
  Float.ofModel (Float.Model.pack (reformat Format.binary64 x.toModel.unpack))

/-- Truncation toward zero into `[lo, hi]`: NaN gives zero, infinities and out-of-range
values give the nearer bound. -/
def truncClamp (lo hi : Int) (u : UnpackedFloat) : Int :=
  max lo (min hi (u.toInt lo hi))

/-- A double truncated toward zero, unbounded; NaN and infinities give zero. -/
def truncInt (x : Float) : Int :=
  x.toModel.unpack.toInt 0 0

def truncInt64 (x : Float) : Int :=
  truncClamp (-9223372036854775808) 9223372036854775807 x.toModel.unpack

def truncSingleInt16 (x : Float32) : Int :=
  truncClamp (-32768) 32767 x.toModel.unpack

/-- `2^511`: above it, squares may overflow. -/
def hugeBound : Float := Float.ofBits 0x5FE0000000000000

/-- `2^-511`: below it, squares may underflow. -/
def tinyBound : Float := Float.ofBits 0x2000000000000000

/-- `2^-54`: a ratio below which the smaller argument cannot change the larger one. -/
def negligible : Float := Float.ofBits 0x3C90000000000000

/-- `2^-600`: the scale that brings huge or tiny arguments to moderate size, exactly. -/
def rescale : Float := Float.ofBits 0x1A70000000000000

/-- `√(ax² + ay²)` for `ax ≥ ay > 0` whose squares neither overflow nor underflow: the
rounded square root `h`, corrected by `(h² - ax² - ay²) / 2h`, whose numerator is gathered
from terms that are exact or nearly so. -/
def hypotKernel (ax ay : Float) : Float :=
  let h := (ax * ax + ay * ay).sqrt
  let (t₁, t₂) :=
    if h ≤ 2 * ay then
      let δ := h - ay
      (ax * (2 * δ - ax), (δ - 2 * (ax - ay)) * δ)
    else
      let δ := h - ax
      (2 * δ * (ax - 2 * ay), (4 * δ - ay) * ay + δ * δ)
  h - (t₁ + t₂) / (2 * h)

/-- `√(x² + y²)`. An infinite argument gives `+∞` even beside a NaN; otherwise a NaN gives
NaN. When the smaller magnitude is below `2^-54` of the larger, the sum of the two is the
answer; huge or tiny arguments are scaled by `2^∓600` around `hypotKernel`. -/
def hypot (x y : Float) : Float :=
  if x.isInf || y.isInf then inf
  else if x.isNaN || y.isNaN then x + y
  else
    let ax := if x.abs < y.abs then y.abs else x.abs
    let ay := if x.abs < y.abs then x.abs else y.abs
    if ax > hugeBound then
      if ay ≤ ax * negligible then ax + ay
      else hypotKernel (ax * rescale) (ay * rescale) / rescale
    else if ay < tinyBound then
      if ax ≥ ay / negligible then ax + ay
      else hypotKernel (ax / rescale) (ay / rescale) * rescale
    else if ay ≤ ax * negligible then ax + ay
    else hypotKernel ax ay

end PhaseVocoder.Ieee
