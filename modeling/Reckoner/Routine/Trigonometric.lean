/-
# `Reckoner.Routine.Trigonometric` — sines, cosines, tangents and their inverses

Angles are in degrees, on the way in and on the way out.
-/
import Reckoner.Routine.Basic

namespace Reckoner.Routine

def piValue : Float := 3.141592653589793

def toRadians (degrees : Float) : Float := degrees * (piValue / 180.0)

def toDegrees (radians : Float) : Float := radians * 57.29577951308232

def unitInterval (x : Number) : Except Violation Number :=
  if -1.0 ≤ x.toFloat ∧ x.toFloat ≤ 1.0 then .ok x
  else .error (.outsideUnitInterval x.toFloat)

def sin : Routine := ⟨"sin", .one fun x => .ok (x.map (Float.sin ∘ toRadians))⟩

def cos : Routine := ⟨"cos", .one fun x => .ok (x.map (Float.cos ∘ toRadians))⟩

def tan : Routine := ⟨"tan", .one fun x => .ok (x.map (Float.tan ∘ toRadians))⟩

def asin : Routine :=
  ⟨"asin", .one fun x => (unitInterval x).map (.map (toDegrees ∘ Float.asin))⟩

def acos : Routine :=
  ⟨"acos", .one fun x => (unitInterval x).map (.map (toDegrees ∘ Float.acos))⟩

def atan : Routine := ⟨"atan", .one fun x => .ok (x.map (toDegrees ∘ Float.atan))⟩

end Reckoner.Routine
