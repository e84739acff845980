/-
# `Reckoner.Binary64.Remainder` — the remainder of a division

Two remainders of `a` by `b`.

* `truncatedRemainder` has the sign of `a`.  It is exact: both operands are
  brought to the smaller exponent, where they are integers, and the remainder of
  those integers has no more digits than a double holds.
* `flooredRemainder` has the sign of `b`: `-7` leaves `2` on division by `3`.
  It moves the exact remainder by one rounded addition, so it may reach `b`.

`isOdd` tells whether a double is an odd integer.
-/
import Reckoner.Binary64.Basic

namespace Reckoner.Binary64

/-- `a - b · q` for the integer `q` next to `a / b` in the direction of zero. -/
def truncatedRemainder (a b : Float) : Float :=
  match parts a, parts b with
  | .finite s m e _, .finite _ n f _ =>
    let low := min e f
    ofParts s ((m <<< (e - low).toNat) % (n <<< (f - low).toNat)) low
  | .zero _, .finite .. => a
  | .zero _, .infinity _ => a
  | .finite .., .infinity _ => a
  | _, _ => nan

/-- The remainder with the sign of the divisor.  An exact multiple leaves positive zero. -/
def flooredRemainder (a b : Float) : Float :=
  let r := truncatedRemainder a b
  if r != 0.0 && decide (r < 0.0) != decide (b < 0.0) then r + b else r + 0.0

example : flooredRemainder (-7.0) 3.0 = 2.0 ∧ flooredRemainder 7.0 (-3.0) = -2.0 ∧
    flooredRemainder (-6.0) 3.0 = 0.0 := by decide

/-- An odd integer.  No other double leaves plus or minus one on division by two. -/
def isOdd (x : Float) : Bool :=
  let r := truncatedRemainder x 2.0
  r == 1.0 || r == -1.0

example : isOdd 3.0 ∧ isOdd (-1.0) ∧ !isOdd 0.0 ∧ !isOdd 2.5 ∧ !isOdd 1e300 := by decide +kernel

end Reckoner.Binary64
