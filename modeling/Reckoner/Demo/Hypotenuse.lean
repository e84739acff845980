/-
# `Reckoner.Demo.Hypotenuse` — one tree under several variables

The hypotenuse of three right-angled triangles: the expression is read once and
its tree evaluated three times.
-/
import Reckoner.Calculator

namespace Reckoner.Demo

def hypotenuseText : String := "sqrt(x ** 2 + y ** 2)"

/-- The line of a triangle with legs `x` and `y`. -/
def triangleLine (e : Expr) (x y : Number) : String :=
  match e.eval .standard [("x", x), ("y", y)] with
  | .ok v =>
    hypotenuseText ++ " with x=" ++ Decimal.text x.toFloat
      ++ ", y=" ++ Decimal.text y.toFloat ++ ": " ++ Decimal.text v.toFloat
  | .error fault => "Error: " ++ fault.report.text

def hypotenuse : List String :=
  match Expr.parse hypotenuseText with
  | .ok e =>
    ["AST depth: " ++ toString e.depth,
     triangleLine e 3.0 4.0, triangleLine e 5.0 12.0, triangleLine e 8.0 15.0]
  | .error error => ["Error: " ++ error.report.text]

end Reckoner.Demo
