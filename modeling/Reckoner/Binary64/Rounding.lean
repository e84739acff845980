/-
# `Reckoner.Binary64.Rounding` — rounding to integers and to decimal places

`roundHalfAway` is exact: the nearest integer, a half going away from zero.
`roundPlaces` is not: it scales by a power of ten, rounds, and scales back, with
one rounding of the machine at either scaling.  Where the scaling overflows
there is nothing to round, and the value stays as it is.
-/
import Reckoner.Binary64.Basic

namespace Reckoner.Binary64

/-- The nearest integer; a half goes away from zero, and the sign of zero is kept. -/
def roundHalfAway (x : Float) : Float :=
  match parts x with
  | .finite s m e _ =>
    if 0 ≤ e then x
    else
      let k := (-e).toNat
      ofParts s ((2 * m + Nat.pow 2 k) / Nat.pow 2 (k + 1)) 0
  | _ => x

/-- No more than fifteen decimal places are kept: a double holds no more. -/
def mostPlaces : Nat := 15

/-- The power of ten that moves `places` decimals before the point.  It is an exact double. -/
def scale (places : Nat) : Float := .ofNat (Nat.pow 10 (min places mostPlaces))

/-- `x` to a number of decimal places.  A result of zero has no sign. -/
def roundPlaces (places : Nat) (x : Float) : Float :=
  let rounded := roundHalfAway (x * scale places) / scale places
  if rounded.isFinite then rounded + 0.0 else x

example : roundHalfAway 2.5 = 3.0 ∧ roundHalfAway (-2.5) = -3.0 ∧
    roundHalfAway 0.49999999999999994 = 0.0 := by decide

end Reckoner.Binary64
