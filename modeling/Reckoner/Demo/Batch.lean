/-
# `Reckoner.Demo.Batch` — several expressions under the same variables

Six expressions about a circle and an angle, by a calculator that takes short
expressions only.  Two of them fail.
-/
import Reckoner.Calculator

namespace Reckoner.Demo

/-- A calculator for short expressions. -/
def brief : Calculator := { settings := { maxLength := 256 } }

def circleTexts : List String :=
  ["pi * radius ** 2", "2 * pi * radius", "sin(angle) ** 2 + cos(angle) ** 2", "tan(angle)",
   "radius / (angle - 45)", "logn(radius, 0)"]

def outcomeLine (text : String) : Except Failure Number → String
  | .ok v => text ++ " = " ++ Decimal.text v.toFloat
  | .error failure => text ++ " failed: " ++ failure.report.text

def batch : List String :=
  circleTexts.zipWith outcomeLine
    (brief.evaluateBatch [("radius", 2.5), ("angle", 45.0)] circleTexts)

end Reckoner.Demo
