/-
# `Reckoner.Binary64.Basic` — the parts of a double

Addition, multiplication, division, comparison and the square root of doubles
are core's, correctly rounded.  Whatever has to be *exact* — the nearest integer,
the remainder, the decimal digits — works on the parts of a double instead: a
sign, a natural significand `m` and an integer exponent `e`, for the value
`± m · 2 ^ e`.

* `parts` takes a double apart, `ofParts` rounds parts to the nearest double.
* `toRat` is the exact value of a finite double.
* `isIntegral` tells whether that value is an integer.
-/
namespace Reckoner.Binary64

open Float.Model (UnpackedFloat)
open Float.Model.UnpackedFloat (Sign)

/-- A double is an infinity, not a number, a signed zero or `± m · 2 ^ e`. -/
def parts (x : Float) : UnpackedFloat := x.toModel.unpack

/-- The double nearest to `± m · 2 ^ e`, ties to even. -/
def ofParts (s : Sign) (m : Nat) (e : Int) : Float :=
  .ofModel (.pack (.round .binary64 s m e))

/-- Not a number. -/
def nan : Float := .ofBits 0x7FF8000000000000

/-- The exact value of a finite double; an infinity and not-a-number count as zero. -/
def toRat (x : Float) : Rat :=
  match parts x with
  | .finite s m e _ => (s.apply m : Int) * (2 : Rat) ^ e
  | _ => 0

/-- A finite double without a fractional part.  Infinities do not count as integers. -/
def isIntegral (x : Float) : Bool :=
  match parts x with
  | .zero _ => true
  | .finite _ m e _ => 0 ≤ e || m % Nat.pow 2 (-e).toNat == 0
  | _ => false

end Reckoner.Binary64
