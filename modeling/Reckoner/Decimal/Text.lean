/-
# `Reckoner.Decimal.Text` — a double as text

Numbers inside messages are written out in full: the shortest digits that read
back, a point where it belongs, and never an exponent.  Whole numbers have no
point.
-/
import Reckoner.Binary64.Basic
import Reckoner.Decimal.Shortest

namespace Reckoner.Decimal

/-- `n · 10 ^ e` written out, the last digits of `n` after the point where `e` is negative. -/
def positional (n : Nat) (e : Int) : String :=
  let digits := Nat.toDigits 10 n
  if 0 ≤ e then String.ofList (digits ++ List.replicate e.toNat '0')
  else
    let places := (-e).toNat
    let padded := List.replicate (places + 1 - digits.length) '0' ++ digits
    let whole := padded.take (padded.length - places)
    String.ofList (whole ++ '.' :: padded.drop (padded.length - places))

def signText : Float.Model.UnpackedFloat.Sign → String
  | .negative => "-"
  | .positive => ""

def text (x : Float) : String :=
  match Binary64.parts x with
  | .notANumber => "NaN"
  | .infinity s => signText s ++ "inf"
  | .zero s => signText s ++ "0"
  | .finite s m e _ =>
    let (n, k) := shortest m e
    signText s ++ positional n k

/-- The text of a double with a point in it, `12.0` for twelve. -/
def pointText (x : Float) : String :=
  let t := text x
  if x.isFinite && !t.contains '.' then t ++ ".0" else t

example : positional 12345 (-2) = "123.45" ∧ positional 5 (-3) = "0.005" ∧
    positional 12 3 = "12000" := by decide

end Reckoner.Decimal
