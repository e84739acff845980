/-
# `Reckoner.Routine.Logarithmic` — logarithms

`log` is the decimal logarithm of one number and the logarithm to a given base
of two; the other routines have one meaning each.  Any positive base other than
one will do, a base below one included.
-/
import Reckoner.Routine.Basic

namespace Reckoner.Routine

def positive (x : Number) : Except Violation Number :=
  if 0.0 < x.toFloat then .ok x else .error (.notPositive x.toFloat)

def decimalLogarithm (x : Number) : Except Violation Number :=
  (positive x).map (.map Float.log10)

def logarithm (x base : Number) : Except Violation Number := do
  let x ← positive x
  let b := base.toFloat
  if b ≤ 0.0 || b == 1.0 then .error (.badBase b)
  else .ok (x.map Float.log / base.map Float.log)

def log : Routine := ⟨"log", .oneOrTwo decimalLogarithm logarithm⟩

def log10 : Routine := ⟨"log10", .one decimalLogarithm⟩

def ln : Routine := ⟨"ln", .one fun x => (positive x).map (.map Float.log)⟩

def logn : Routine := ⟨"logn", .two logarithm⟩

end Reckoner.Routine
