/-
# `Reckoner.Operator.Arithmetic` — what signs and operators compute

Division and remainder refuse a divisor that is zero, of either sign.  A power
is that of the routine `power`, domain and all.  A result that is not finite
although both operands are is an overflow.
-/
import Reckoner.Operator
import Reckoner.Report
import Reckoner.Routine.Exponential

namespace Reckoner

def Sign.apply : Sign → Number → Number
  | .minus, x => -x
  | .plus, x => x

/-- Why an operator gives no number. -/
inductive OperatorFault where
  | divisionByZero
  | moduloByZero
  /-- The operands lie outside the domain of powers. -/
  | power (fault : Fault)
  | overflow
  deriving DecidableEq

def OperatorFault.text : OperatorFault → String
  | .divisionByZero => "Division by zero"
  | .moduloByZero => "Modulo by zero"
  | .power fault => fault.text
  | .overflow => "Numeric overflow"

/-- Division by zero is told apart from the other faults. -/
def OperatorFault.kind : OperatorFault → Kind
  | .divisionByZero | .moduloByZero => .zeroDivision
  | .power _ | .overflow => .evaluation

def OperatorFault.report (f : OperatorFault) : Report := { kind := f.kind, message := f.text }

/-- The report of a symbol that spells no sign or operator. -/
def Operator.unknownSymbol (what symbol : String) : Report :=
  { kind := .malformed, message := "Unsupported " ++ what ++ ": " ++ symbol }

/-- The value before the check for overflow. -/
def Operator.compute : Operator → Number → Number → Except OperatorFault Number
  | .add, x, y => .ok (x + y)
  | .subtract, x, y => .ok (x - y)
  | .multiply, x, y => .ok (x * y)
  | .divide, x, y => if y.toFloat == 0.0 then .error .divisionByZero else .ok (x / y)
  | .modulo, x, y => if y.toFloat == 0.0 then .error .moduloByZero else .ok (x % y)
  | .power, x, y =>
    (Routine.realPower x y).mapError fun violation =>
      .power (.domain Routine.power.name violation)

/-- The value of an operator between two operands. -/
def Operator.apply (o : Operator) (x y : Number) : Except OperatorFault Number := do
  let v ← o.compute x y
  if !v.isFinite && x.isFinite && y.isFinite then .error .overflow else .ok v

end Reckoner
