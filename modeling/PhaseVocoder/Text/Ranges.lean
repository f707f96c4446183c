/-!
# Sets of code points as closed ranges

A character property is kept as a list of closed ranges of code points, ascending and apart.
`Ranges.contains` decides membership.
-/

namespace PhaseVocoder.Text

/-- Closed ranges `(first, last)` of code points, meant ascending and apart. -/
abbrev Ranges := List (Nat × Nat)

def Ranges.contains (rs : Ranges) (n : Nat) : Bool :=
  rs.any (fun r => r.1 ≤ n && n ≤ r.2)

end PhaseVocoder.Text
