import ValueFlow.Number.Double

/-!
# Shortest decimals

The fewest decimal digits that still tell a double from every other, and of those the nearest to it.
A decimal stands for a double if it lies between the midpoints to the double's neighbours; a
midpoint itself counts when the double's significand is even, since ties round to it. All
comparisons are between natural numbers.
-/

namespace ValueFlow.Double

/-- The positive number `digits * 10 ^ exponent`. -/
structure Decimal where
  digits : Nat
  exponent : Int
  deriving DecidableEq, Repr

/-- Decimals that round to a magnitude, as fractions with the denominator `2 * scale`. -/
structure Span where
  low : Nat
  middle : Nat
  high : Nat
  closed : Bool

/-- The gap below a power of two is half the gap above it, except at the least gap. -/
def span (u : Nat) : Span :=
  let k := excess u
  let above := 1 <<< k
  let below := if u = 1 <<< (k + 52) ∧ 0 < k then above / 2 else above
  { low := 2 * u - below
    middle := 2 * u
    high := 2 * u + above
    closed := u / above % 2 == 0 }

/-- A span measured in steps of `10 ^ exponent`: the same fractions, with denominator `step`. -/
structure Grid where
  span : Span
  step : Nat

def Span.grid (s : Span) (exponent : Int) : Grid :=
  if 0 ≤ exponent then ⟨s, 2 * scale * Nat.pow 10 exponent.toNat⟩
  else
    let factor := Nat.pow 10 (-exponent).toNat
    ⟨⟨s.low * factor, s.middle * factor, s.high * factor, s.closed⟩, 2 * scale⟩

def Grid.holds (g : Grid) (digits : Nat) : Bool :=
  let x := digits * g.step
  if g.span.closed then g.span.low ≤ x && x ≤ g.span.high
  else g.span.low < x && x < g.span.high

/-- The nearer of the two neighbours on the grid that is in the span; a tie goes to the even one. -/
def Grid.nearest? (g : Grid) : Option Nat :=
  let d := g.span.middle / g.step
  let r := g.span.middle % g.step
  let up := g.step < 2 * r || (g.step == 2 * r && d % 2 == 1)
  let (first, second) := if up then (d + 1, d) else (d, d + 1)
  if g.holds first then some first
  else if g.holds second then some second
  else none

/-- The number of digits before the point; below one, less one for each zero after the point. -/
def decimalWidth (u : Nat) : Int :=
  if scale ≤ u then ((Nat.toDigits 10 (u / scale)).length : Int)
  else 1 - ((Nat.toDigits 10 ((scale - 1) / u)).length : Int)

/-- The decimal of `count` digits nearest to a magnitude, if it stands for it. -/
def decimal? (u count : Nat) : Option Decimal :=
  let exponent := decimalWidth u - count
  ((span u).grid exponent).nearest?.map fun digits =>
    if digits = 10 then ⟨1, exponent + 1⟩ else ⟨digits, exponent⟩

/-- The shortest decimal of a positive magnitude; seventeen digits are always enough. -/
def shortest (u : Nat) : Decimal :=
  ((List.range' 1 17).findSome? (decimal? u)).getD ⟨0, 0⟩

end ValueFlow.Double
