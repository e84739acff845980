/-
# `Reckoner.Routine.Basic` — routines on numbers

A routine is a name and a body.  A body takes one number, two, one or two, or
any list of numbers, and answers with a number or with the reason why the
arguments lie outside its domain (`Violation`).

`Routine.run` applies a routine to a list of numbers.  It fails when their count
does not fit the body or when they lie outside the domain, and the fault names
the routine.
-/
import Reckoner.Decimal.Text
import Reckoner.Number

namespace Reckoner

/-! ## Counts -/

/-- The counts of arguments that a routine takes. -/
inductive Arity where
  | exactly (n : Nat)
  | between (least most : Nat)
  | atLeast (n : Nat)
  deriving DecidableEq, Repr

def Arity.accepts : Arity → Nat → Bool
  | .exactly n, count => count == n
  | .between least most, count => least ≤ count && count ≤ most
  | .atLeast n, count => n ≤ count

def Arity.text : Arity → String
  | .exactly n => s!"exactly {n}"
  | .between least most => s!"{least} to {most}"
  | .atLeast n => s!"at least {n}"

/-! ## Violations -/

/-- Why arguments lie outside the domain of a routine. -/
inductive Violation where
  /-- An inverse sine or cosine beyond one. -/
  | outsideUnitInterval (x : Float)
  /-- A logarithm of a number that is not positive. -/
  | notPositive (x : Float)
  /-- A logarithm to a base that is not positive, or is one. -/
  | badBase (base : Float)
  | zeroToZero
  | zeroToNegative (exponent : Float)
  /-- A fractional power of a negative number. -/
  | fractionalPower (base exponent : Float)
  | squareRootOfNegative (x : Float)
  /-- A root whose degree is not positive. -/
  | badDegree (degree : Float)
  /-- A root of a negative number whose degree is no odd integer. -/
  | rootOfNegative (degree x : Float)
  /-- A spread of fewer than two values. -/
  | tooFewValues (count : Nat)
  deriving DecidableEq

def Violation.text : Violation → String
  | .outsideUnitInterval x => "argument must be in [-1, 1], got " ++ Decimal.text x
  | .notPositive x => "x must be > 0, got " ++ Decimal.text x
  | .badBase base => "base must be > 0 and != 1, got " ++ Decimal.text base
  | .zeroToZero => "0 ** 0 is undefined"
  | .zeroToNegative exponent =>
    "0 cannot be raised to a negative power (" ++ Decimal.text exponent ++ ")"
  | .fractionalPower base exponent =>
    "negative base " ++ Decimal.text base ++ " with non-integer exponent "
      ++ Decimal.text exponent ++ " has no real result"
  | .squareRootOfNegative x =>
    "cannot take the square root of a negative number (" ++ Decimal.text x ++ ")"
  | .badDegree degree => "root degree must be > 0, got " ++ Decimal.text degree
  | .rootOfNegative degree x =>
    "root " ++ Decimal.text degree ++ " of negative number " ++ Decimal.text x
      ++ " has no real result"
  | .tooFewValues count => s!"requires at least two values, got {count}"

/-! ## Faults -/

/-- Why a routine gives no number. -/
inductive Fault where
  | domain (routine : String) (violation : Violation)
  | arity (routine : String) (expected : Arity) (given : Nat)
  /-- The result is not finite although all arguments are. -/
  | overflow (routine : String)
  deriving DecidableEq

def Fault.routine : Fault → String
  | .domain f _ | .arity f _ _ | .overflow f => f

def Fault.text : Fault → String
  | .domain f violation => "Domain error in " ++ f ++ "(): " ++ violation.text
  | .arity f expected given =>
    f ++ "() expects " ++ expected.text ++ " argument(s), got " ++ toString given
  | .overflow f => "Numeric overflow in " ++ f ++ "()"

/-! ## Bodies -/

/-- What a routine computes, by the number of its arguments. -/
inductive Body where
  | one (f : Number → Except Violation Number)
  | two (f : Number → Number → Except Violation Number)
  | oneOrTwo (f : Number → Except Violation Number)
      (g : Number → Number → Except Violation Number)
  | many (f : List Number → Except Violation Number)

def Body.arity : Body → Arity
  | .one _ => .exactly 1
  | .two _ => .exactly 2
  | .oneOrTwo .. => .between 1 2
  | .many _ => .atLeast 0

/-- The answer of a body, if it takes that many arguments. -/
def Body.answer? : Body → List Number → Option (Except Violation Number)
  | .one f, [x] | .oneOrTwo f _, [x] => some (f x)
  | .two f, [x, y] | .oneOrTwo _ f, [x, y] => some (f x y)
  | .many f, xs => some (f xs)
  | _, _ => none

theorem Body.answer?_isSome (b : Body) (xs : List Number) :
    (b.answer? xs).isSome = b.arity.accepts xs.length := by
  cases b <;> match xs with
    | [] | [_] | [_, _] | _ :: _ :: _ :: _ => simp [answer?, arity, Arity.accepts]

/-- A named body. -/
structure Routine where
  name : String
  body : Body

/-- The number that a routine gives for a list of arguments. -/
def Routine.run (r : Routine) (xs : List Number) : Except Fault Number :=
  match r.body.answer? xs with
  | some answer => answer.mapError (.domain r.name)
  | none => .error (.arity r.name r.body.arity xs.length)

end Reckoner
