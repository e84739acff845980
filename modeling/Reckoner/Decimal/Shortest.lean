/-
# `Reckoner.Decimal.Shortest` — the fewest digits that read back

A finite positive double is the nearest double to every real of an interval
around it, its *span*.  Among the decimals of that span, `shortest` picks one
with the fewest digits, and of those the nearest to the double.

The search is over *grids*: the multiples of a power of ten.  A decimal has the
fewest digits exactly when it lies on the coarsest grid that meets the span, so
the search starts at a grid too coarse to meet it and refines step by step.  On
each grid only the double's two neighbours matter: if any point of the grid lies
in the span, so does one of them.

All quantities are natural numbers, counted in units of `2 ^ -1076 · 10 ^ -1074`.
In that unit the double, the ends of its span and the grids down to
`10 ^ -1074` are whole; and on the last of those grids every double lies.
-/
namespace Reckoner.Decimal

/-- The reals whose nearest double is `value`, as an interval around it. -/
structure Span where
  low : Nat
  value : Nat
  high : Nat
  /-- Whether the ends belong to the interval: a tie goes to the even significand. -/
  closed : Bool

/-- The span of `m · 2 ^ e`.  Below a power of two the neighbouring double is half as far away. -/
def Span.ofParts (m : Nat) (e : Int) : Span :=
  let quarter := Nat.pow 10 1074 * Nat.pow 2 (e + 1074).toNat
  let below := if m = Nat.pow 2 52 && e != -1074 then 1 else 2
  { low := (4 * m - below) * quarter
    value := 4 * m * quarter
    high := (4 * m + 2) * quarter
    closed := m % 2 = 0 }

/-- The number lies in the span. -/
def Span.holds (s : Span) (x : Nat) : Bool :=
  if s.closed then s.low ≤ x && x ≤ s.high else s.low < x && x < s.high

/-- The multiples of ten to the `i - 1074`, given by the size of a step. -/
def gridStep (i : Nat) : Nat := Nat.pow 10 i * Nat.pow 2 1076

/-- The point of a grid that lies in the span nearest to its value, counted in steps.
The neighbour above wins a tie. -/
def Span.nearest? (s : Span) (step : Nat) : Option Nat :=
  let below := s.value / step
  let above := below + 1
  match s.holds (below * step), s.holds (above * step) with
  | true, true =>
    if s.value - below * step < above * step - s.value then some below else some above
  | true, false => some below
  | false, true => some above
  | false, false => none

/-- The first grid at or below the `i`-th that meets the span, and its nearest point. -/
def Span.refine (s : Span) : Nat → Nat × Nat
  | 0 => (s.value / gridStep 0, 0)
  | i + 1 =>
    match s.nearest? (gridStep (i + 1)) with
    | some n => (n, i + 1)
    | none => s.refine i

/-- A grid whose step exceeds `m · 2 ^ e` twice over: `30103 / 100000` is just above the
logarithm of two to base ten. -/
def coarseGrid (m : Nat) (e : Int) : Nat :=
  (1076 + (e + m.log2 + 1) * 30103 / 100000).toNat

/-- The digits and the exponent of the shortest decimal that reads back as `m · 2 ^ e`. -/
def shortest (m : Nat) (e : Int) : Nat × Int :=
  let (n, i) := (Span.ofParts m e).refine (coarseGrid m e)
  (n, (i : Int) - 1074)

/-- One tenth has one digit; the least double above zero is written `5e-324`. -/
example : shortest 0x1999999999999A (-56) = (1, -1) ∧ shortest 1 (-1074) = (5, -324) := by
  decide +kernel

end Reckoner.Decimal
