/-
# `Reckoner.Proofs.Number.Arithmetic` — operations on numbers are those on doubles

Which sign a not-a-number gets is all that numbers add to doubles.  Forgetting it takes every
operation to the one on doubles (`toFloat_ofResult`), so what is known there of the range and
of signs holds here.
-/
import Reckoner.Proofs.Binary64.Range
import Reckoner.Proofs.Routine.Domain

namespace Reckoner.Number

open Binary64 (toRat overflowBound rounded)

/-- There is one not-a-number among the doubles, so a result forgets what it was computed from. -/
@[simp] theorem toFloat_ofResult (v : Float) (operands : List Number) :
    (ofResult v operands).toFloat = v := by
  cases hv : v.isNaN with
  | false => rw [ofResult_of_isNaN_eq_false hv, toFloat_ofFloat]
  | true =>
      have hnan : (ofResult v operands).toFloat.isNaN = true := (isNaN_ofResult v operands).trans hv
      exact Binary64.eq_of_isNaN hnan hv

theorem toFloat_add (x y : Number) : (x + y).toFloat = x.toFloat + y.toFloat :=
  toFloat_ofResult _ _

theorem toFloat_mul (x y : Number) : (x * y).toFloat = x.toFloat * y.toFloat :=
  toFloat_ofResult _ _

theorem toFloat_div (x y : Number) : (x / y).toFloat = x.toFloat / y.toFloat :=
  toFloat_ofResult _ _

theorem toFloat_map (f : Float → Float) (x : Number) : (x.map f).toFloat = f x.toFloat :=
  toFloat_ofResult _ _

/-! ## Finite results -/

section Operations

variable {x y : Number} (hy : y.isFinite = true)

include hy

theorem isFinite_add_iff :
    (x + y).isFinite = true ↔ x.isFinite = true ∧ |x.exact + y.exact| < overflowBound := by
  rw [isFinite, toFloat_add]
  exact Binary64.isFinite_add_iff hy

theorem exact_add (h : (x + y).isFinite = true) :
    (x + y).exact = rounded (x.exact + y.exact) := by
  rw [isFinite, toFloat_add] at h
  rw [exact, toFloat_add]
  exact Binary64.toRat_add hy h

end Operations

theorem isFinite_div_ofNat (x : Number) {n : Nat} (hn : 0 < n) :
    (x / ofNat n).isFinite = x.isFinite := by
  rw [isFinite, toFloat_div]
  exact Binary64.isFinite_div_ofNat x.toFloat hn

/-! ## Signs -/

def Unsigned (x : Number) : Prop := Binary64.Unsigned (Binary64.parts x.toFloat)

theorem unsigned_add {x y : Number} (hx : x.Unsigned ∨ x = -0.0) (hy : y.Unsigned) :
    (x + y).Unsigned := by
  rw [Unsigned, toFloat_add]
  refine Binary64.unsigned_pack (Binary64.unsigned_add (hx.imp_right ?_) hy)
  rintro rfl
  with_unfolding_all rfl

theorem unsigned_mul_self (x : Number) : (x * x).Unsigned := by
  rw [Unsigned, toFloat_mul]
  exact Binary64.unsigned_pack (Binary64.unsigned_mul_self _)

theorem Unsigned.div_ofNat {x : Number} (hx : x.Unsigned) (n : Nat) : (x / ofNat n).Unsigned := by
  rw [Unsigned, toFloat_div]
  exact Binary64.unsigned_pack (Binary64.unsigned_div hx (Binary64.unsigned_floatOfNat n))

end Reckoner.Number
