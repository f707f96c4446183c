import PhaseVocoder.Ieee

/-!
# Shortest decimal digits of a double

A finite positive double `v = m · 2^e` stands for the interval of reals that round to it:
halfway to each neighbour, both ends included exactly when `m` is even (ties go to the even
mantissa). `shortest` returns the decimal `d · 10^k` with the fewest significant digits in
that interval, and of two such the one nearer to `v` (an exact tie goes to the even digit).
Reading the result back therefore gives `v` again, and no shorter decimal does.

All comparisons are exact, in `Nat`: a decimal `c · 10^k` and a dyadic `n · 2^q` are
compared as whole multiples of a common unit.
-/

namespace PhaseVocoder.Decimal

/-- A nonnegative decimal `digits · 10^exponent`. -/
structure Scientific where
  digits : Nat
  exponent : Int
deriving DecidableEq, Repr

/-- `m · 2^e` is at least `10^k`, exactly. -/
def reaches (m : Nat) (e : Int) (k : Int) : Bool :=
  m * Nat.pow 2 e.toNat * Nat.pow 10 (-k).toNat ≥ Nat.pow 10 k.toNat * Nat.pow 2 (-e).toNat

/-- The decimal exponent `d` with `10^(d-1) ≤ m · 2^e < 10^d` (for `m > 0`). With
`b = log₂ m + e`, the value lies in `[2^b, 2^(b+1))`, so `d - 1` is within one of
`⌊b · log₁₀ 2⌋`; the least `d` of a window around that estimate whose power exceeds the
value is the answer. -/
def magnitude (m : Nat) (e : Int) : Int :=
  let estimate : Int := ((m.log2 : Int) + e) * 30103 / 100000
  let window := (List.range 6).map fun (i : Nat) => estimate - 2 + i
  (window.find? fun d => !reaches m e d).getD (estimate + 4)

/-- The rounding interval of the double `m · 2^e`, in quarter units `2^(e-2)`: its ends are
`4m - below` and `4m + 2`. The gap below is half as wide when `m` is the smallest mantissa
of its binade and the binade is not the lowest. -/
def lowerReach (m : Nat) (e : Int) : Nat :=
  if m = Nat.pow 2 52 ∧ -1074 < e then 1 else 2

/-- A grid step `10^j` and a quarter unit `2^(e-2)` as whole multiples of one common unit. -/
def commonUnits (e j : Int) : Nat × Nat :=
  (Nat.pow 10 j.toNat * Nat.pow 2 (2 - e).toNat, Nat.pow 2 (e - 2).toNat * Nat.pow 10 (-j).toNat)

def Scientific.trim (s : Scientific) : Scientific :=
  let zeros := ((Nat.toDigits 10 s.digits).reverse.takeWhile (· == '0')).length
  if s.digits = 0 then s else ⟨s.digits / Nat.pow 10 zeros, s.exponent + zeros⟩

/-- The candidate with `n` significant digits, if one lies in the interval: of the two
neighbours of `v` on the grid `10^(d-n)`, the one inside, or the nearer if both are, the even
one on an exact tie. Every quantity is an exact multiple of the unit of `commonUnits`. -/
def candidate (m : Nat) (e : Int) (d : Int) (n : Nat) : Option Scientific :=
  let j := d - n
  let (step, quarter) := commonUnits e j
  let closed := m % 2 == 0
  let low := (4 * m - lowerReach m e) * quarter
  let high := (4 * m + 2) * quarter
  let v := 4 * m * quarter
  let inside (c : Nat) : Bool :=
    let x := c * step
    (low < x || (closed && low == x)) && (x < high || (closed && x == high))
  let lo := v / step
  let inLo := lo > 0 && inside lo
  let inHi := inside (lo + 1)
  if inLo && inHi then
    -- compare v with the midpoint (2 lo + 1) · 10^j / 2
    match compare ((2 * lo + 1) * step) (2 * v) with
    | .lt => some ⟨lo + 1, j⟩
    | .gt => some ⟨lo, j⟩
    | .eq => some (if lo % 2 == 0 then ⟨lo, j⟩ else ⟨lo + 1, j⟩)
  else if inLo then some ⟨lo, j⟩
  else if inHi then some ⟨lo + 1, j⟩
  else none

/-- The least digit count in `(lo, hi]` with a candidate, by bisection, when `lo` has none
and `hi` has one. Having a candidate is monotone in the digit count (a grid point inside
the interval is also a point of every finer grid), so bisection finds the least. -/
def leastDigits (m : Nat) (e d : Int) : (fuel lo hi : Nat) → Nat
  | 0, _, hi => hi
  | fuel + 1, lo, hi =>
    if hi ≤ lo + 1 then hi
    else
      let mid := (lo + hi) / 2
      if (candidate m e d mid).isSome then leastDigits m e d fuel lo mid
      else leastDigits m e d fuel mid hi

/-- The shortest decimal in the rounding interval of the positive double `m · 2^e`
(`m > 0`); seventeen digits always suffice for a double. -/
def shortestOf (m : Nat) (e : Int) : Scientific :=
  let d := magnitude m e
  match candidate m e d (leastDigits m e d 5 0 17) with
  | some s => s.trim
  | none =>
    let (step, quarter) := commonUnits e (d - 17)
    (Scientific.mk (4 * m * quarter / step) (d - 17)).trim

/-- The sign and shortest digits of a finite double; zero has digits `0`. Infinities and NaN
have no digits and give `none`. -/
def shortest (x : Float) : Option (Bool × Scientific) :=
  match x.toModel.unpack with
  | .finite s m e _ => some (s == .negative, shortestOf m e)
  | .zero s => some (s == .negative, ⟨0, 0⟩)
  | _ => none

end PhaseVocoder.Decimal
