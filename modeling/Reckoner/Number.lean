/-
# `Reckoner.Number` — doubles with either sign of not-a-number

The values of expressions are doubles.  The format has not-a-number with either
sign, and a minus turns the one into the other.  No comparison tells them apart,
but the total order of all doubles does: the negative one comes first, the
positive one last.  Core's `Float` has the positive one only, so a `Number` is a
`Float` or the negative not-a-number.

Operations compute on floats.  `ofResult` settles the sign that a result has when
it is not a number: that of the first operand which is none, and the negative
sign if all operands are numbers, as for infinity less infinity.  Odd powers alone
are different: they forget the sign of their base.

The payload of a not-a-number is not represented, so all not-a-numbers of one sign are one
`Number`.  What is shown of a value does not tell them apart.

* `toFloat` is the view that forgets the sign of not-a-number.
* `bits` is the pattern of bits, which keeps it.
* `orderKey` is the place of a number in the total order.
-/
import Reckoner.Binary64.Remainder

namespace Reckoner

/-- A double, with not-a-number of either sign but without its payload. -/
inductive Number where
  /-- A double of core's; its not-a-number is the positive one. -/
  | ofFloat (x : Float)
  | negativeNaN
  deriving DecidableEq, Repr

namespace Number

instance : Coe Float Number := ⟨ofFloat⟩

instance : OfScientific Number := ⟨fun m negative e => ofFloat (.ofScientific m negative e)⟩

/-- The double with the value of a natural number, or nearest to it. -/
def ofNat (n : Nat) : Number := ofFloat (.ofNat n)

def toFloat : Number → Float
  | .ofFloat x => x
  | .negativeNaN => Binary64.nan

/-- Neither an infinity nor not-a-number. -/
def isFinite (x : Number) : Bool := x.toFloat.isFinite

/-- Not-a-number, of either sign. -/
def isNaN (x : Number) : Bool := x.toFloat.isNaN

@[simp] theorem toFloat_ofFloat (x : Float) : (ofFloat x).toFloat = x := rfl

@[simp] theorem isNaN_negativeNaN : negativeNaN.isNaN = true := by decide

@[simp] theorem isFinite_negativeNaN : negativeNaN.isFinite = false := by decide

/-! ## Results of operations -/

/-- The result of an operation that computes `v` from some operands. -/
def ofResult (v : Float) (operands : List Number) : Number :=
  if v.isNaN then (operands.find? isNaN).getD .negativeNaN else .ofFloat v

theorem ofResult_of_isNaN_eq_false {v : Float} (h : v.isNaN = false) (operands : List Number) :
    ofResult v operands = .ofFloat v := by
  rw [ofResult, h]
  rfl

@[simp] theorem isNaN_ofResult (v : Float) (operands : List Number) :
    (ofResult v operands).isNaN = v.isNaN := by
  unfold ofResult
  split
  · rename_i h
    rw [h]
    cases hf : operands.find? isNaN with
    | none => exact isNaN_negativeNaN
    | some x => exact List.find?_some hf
  · rfl

def neg : Number → Number
  | .ofFloat x => if x.isNaN then .negativeNaN else .ofFloat (-x)
  | .negativeNaN => .ofFloat Binary64.nan

instance : Neg Number := ⟨neg⟩

instance : Add Number := ⟨fun x y => ofResult (x.toFloat + y.toFloat) [x, y]⟩

instance : Sub Number := ⟨fun x y => ofResult (x.toFloat - y.toFloat) [x, y]⟩

instance : Mul Number := ⟨fun x y => ofResult (x.toFloat * y.toFloat) [x, y]⟩

instance : Div Number := ⟨fun x y => ofResult (x.toFloat / y.toFloat) [x, y]⟩

/-- The remainder with the sign of the divisor. -/
instance : Mod Number :=
  ⟨fun x y => ofResult (Binary64.flooredRemainder x.toFloat y.toFloat) [x, y]⟩

def map (f : Float → Float) (x : Number) : Number := ofResult (f x.toFloat) [x]

/-- A power.  An odd power of a not-a-number of either sign is the positive one. -/
def pow (x y : Number) : Number :=
  let base := if Binary64.isOdd y.toFloat then .ofFloat x.toFloat else x
  ofResult (x.toFloat.pow y.toFloat) [base, y]

/-- Two minus signs give back a not-a-number of either sign. -/
example : -(-negativeNaN) = negativeNaN ∧ -(-ofFloat Binary64.nan) = ofFloat Binary64.nan := by
  decide

/-- Infinity less infinity is negative; a positive not-a-number among the operands prevails. -/
example : ((1.0 / 0.0 : Number) - 1.0 / 0.0) = negativeNaN ∧
    (1.0 - ofFloat Binary64.nan : Number) = ofFloat Binary64.nan := by decide

/-! ## The total order

Read as integers, the bit patterns of the doubles without a sign are in numeric
order, with not-a-number last; those of the doubles with a sign run backwards.
The key therefore sorts negative zero directly below zero. -/

def bits : Number → Nat
  | .ofFloat x => x.toBits.toNat
  | .negativeNaN => 0xFFF8000000000000

/-- The place of a number in the total order. -/
def orderKey (x : Number) : Int :=
  if x.bits < Nat.pow 2 63 then x.bits else Nat.pow 2 63 - 1 - (x.bits : Int)

/-- Not-a-number, minus infinity, negative zero, zero, one, infinity, not-a-number. -/
example : ([.negativeNaN, -1.0 / 0.0, -0.0, 0.0, 1.0, 1.0 / 0.0, .ofFloat Binary64.nan].map
    orderKey).Pairwise (· < ·) := by decide

end Number

end Reckoner
