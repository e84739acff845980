/-
# `Reckoner.Routine.Exponential` — powers and roots

Results are real numbers.  A negative number has integer powers and odd roots
only, and zero has positive powers only.
-/
import Reckoner.Routine.Basic

namespace Reckoner.Routine

/-- A power with a real value; also the meaning of the operator `**`. -/
def realPower (base exponent : Number) : Except Violation Number :=
  let b := base.toFloat
  let e := exponent.toFloat
  if b == 0.0 && e == 0.0 then .error .zeroToZero
  else if b == 0.0 && e < 0.0 then .error (.zeroToNegative e)
  else if b < 0.0 && !Binary64.isIntegral e then .error (.fractionalPower b e)
  else .ok (base.pow exponent)

def realSquareRoot (x : Number) : Except Violation Number :=
  if x.toFloat < 0.0 then .error (.squareRootOfNegative x.toFloat) else .ok (x.map Float.sqrt)

/-- A root of a positive degree with a real value. -/
def realRoot (x degree : Number) : Except Violation Number :=
  let n := degree.toFloat
  if n ≤ 0.0 then .error (.badDegree n)
  else if 0.0 ≤ x.toFloat then .ok (x.pow (1.0 / degree))
  else if !Binary64.isOdd n then .error (.rootOfNegative n x.toFloat)
  else .ok (-(-x).pow (1.0 / degree))

def exp : Routine := ⟨"exp", .one fun x => .ok (x.map Float.exp)⟩

def power : Routine := ⟨"power", .two realPower⟩

def sqrt : Routine := ⟨"sqrt", .one realSquareRoot⟩

def nthroot : Routine := ⟨"nthroot", .two realRoot⟩

end Reckoner.Routine
