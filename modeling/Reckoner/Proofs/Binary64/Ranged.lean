/-
# `Reckoner.Proofs.Binary64.Ranged` — formulas over doubles

A formula is computed one operation after another, and every result is rounded.  As long
as no result leaves the range, that is arithmetic on rational numbers with a rounding in
every step; once one does, nothing that is added to it or divides it brings it back.
`Ranged` has both: a number in the range, or none.

Formulas that are written for any numbers with the four operations have a meaning here
too, and it is that of doubles (`ofFloat_add` and its companions), provided that every
right operand is finite.
-/
import Reckoner.Proofs.Binary64.Range

namespace Reckoner.Binary64

/-- A rational number in the range of doubles, or the mark that the range has been left. -/
inductive Ranged where
  | number (q : Rat)
  | lost
  deriving DecidableEq

namespace Ranged

/-- A result, rounded, if it stays in the range. -/
def keep (q : Rat) : Ranged := if |q| < overflowBound then .number (rounded q) else .lost

/-- An operation whose result is rounded. -/
def lift (f : Rat → Rat → Rat) : Ranged → Ranged → Ranged
  | .number a, .number b => keep (f a b)
  | _, _ => .lost

def ofFloat (x : Float) : Ranged := if x.isFinite then .number (toRat x) else .lost

instance : Add Ranged := ⟨lift (· + ·)⟩

instance : Sub Ranged := ⟨lift (· - ·)⟩

instance : Mul Ranged := ⟨lift (· * ·)⟩

instance : Div Ranged := ⟨lift (· / ·)⟩

instance : OfScientific Ranged := ⟨fun m s e => ofFloat (.ofScientific m s e)⟩

theorem ofFloat_of_isFinite {x : Float} (hx : x.isFinite = true) :
    ofFloat x = .number (toRat x) := if_pos hx

theorem ofFloat_eq_lost_iff {x : Float} : ofFloat x = .lost ↔ ¬x.isFinite = true := by
  rw [ofFloat]
  cases x.isFinite <;> simp

/-- An operation on doubles is one with a rounding if it is finite, and what it should be. -/
theorem ofFloat_eq_lift {x y z : Float} {f : Rat → Rat → Rat} (hy : y.isFinite = true)
    (hz : z.isFinite = true ↔ x.isFinite = true ∧ |f (toRat x) (toRat y)| < overflowBound)
    (hvalue : z.isFinite = true → toRat z = rounded (f (toRat x) (toRat y))) :
    ofFloat z = lift f (ofFloat x) (ofFloat y) := by
  by_cases hx : x.isFinite = true
  · rw [ofFloat_of_isFinite hx, ofFloat_of_isFinite hy, lift, keep]
    rw [hx, and_iff_right rfl] at hz
    split_ifs with hrange
    · rw [ofFloat_of_isFinite (hz.mpr hrange), hvalue (hz.mpr hrange)]
    · exact ofFloat_eq_lost_iff.mpr fun h => hrange (hz.mp h)
  · rw [ofFloat_eq_lost_iff.mpr hx, ofFloat_eq_lost_iff.mpr fun h => hx (hz.mp h).1]
    rfl

section Operations

variable {x y : Float} (hy : y.isFinite = true)

include hy

theorem ofFloat_add : ofFloat (x + y) = ofFloat x + ofFloat y :=
  ofFloat_eq_lift hy (isFinite_add_iff hy) (toRat_add hy)

theorem ofFloat_sub : ofFloat (x - y) = ofFloat x - ofFloat y :=
  ofFloat_eq_lift hy (isFinite_sub_iff hy) (toRat_sub hy)

theorem ofFloat_mul : ofFloat (x * y) = ofFloat x * ofFloat y :=
  ofFloat_eq_lift hy (isFinite_mul_iff hy) (toRat_mul hy)

theorem ofFloat_div (hne : toRat y ≠ 0) : ofFloat (x / y) = ofFloat x / ofFloat y :=
  ofFloat_eq_lift hy (isFinite_div_iff hy hne) (toRat_div hy hne)

end Operations

end Ranged

end Reckoner.Binary64
