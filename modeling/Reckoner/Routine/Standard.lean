/-
# `Reckoner.Routine.Standard` — the standard registry

Twenty entries in four categories.  `pow` is a second name for `power`.
-/
import Reckoner.Routine.Exponential
import Reckoner.Routine.Logarithmic
import Reckoner.Routine.Registry
import Reckoner.Routine.Statistical
import Reckoner.Routine.Trigonometric

namespace Reckoner.Registry

/-- Angles in degrees. -/
def trigonometric : List Entry :=
  [⟨"sin", .exactly 1, .trigonometric, "Sine of an angle in degrees", Routine.sin⟩,
   ⟨"cos", .exactly 1, .trigonometric, "Cosine of an angle in degrees", Routine.cos⟩,
   ⟨"tan", .exactly 1, .trigonometric, "Tangent of an angle in degrees", Routine.tan⟩,
   ⟨"asin", .exactly 1, .trigonometric, "Arcsine in degrees (domain: [-1, 1])", Routine.asin⟩,
   ⟨"acos", .exactly 1, .trigonometric, "Arccosine in degrees (domain: [-1, 1])", Routine.acos⟩,
   ⟨"atan", .exactly 1, .trigonometric, "Arctangent in degrees", Routine.atan⟩]

/-- Logarithms to several bases. -/
def logarithmic : List Entry :=
  [⟨"log", .between 1 2, .logarithmic,
     "Base-10 logarithm, or log(x, base) for an arbitrary base", Routine.log⟩,
   ⟨"log10", .exactly 1, .logarithmic, "Base-10 logarithm (domain: x > 0)", Routine.log10⟩,
   ⟨"ln", .exactly 1, .logarithmic, "Natural logarithm (domain: x > 0)", Routine.ln⟩,
   ⟨"logn", .exactly 2, .logarithmic,
     "Logarithm of x in the given base (x > 0, base > 0, base != 1)", Routine.logn⟩]

/-- Powers and roots. -/
def exponential : List Entry :=
  [⟨"exp", .exactly 1, .exponential, "Exponential function (e^x)", Routine.exp⟩,
   ⟨"power", .exactly 2, .exponential, "x raised to the power y (real results only)",
     Routine.power⟩,
   ⟨"pow", .exactly 2, .exponential, "Alias of power(x, y)", Routine.power⟩,
   ⟨"sqrt", .exactly 1, .exponential, "Square root (domain: x >= 0)", Routine.sqrt⟩,
   ⟨"nthroot", .exactly 2, .exponential, "n-th root of x (n > 0; odd n allows negative x)",
     Routine.nthroot⟩]

/-- Averages and spreads, of at least one value. -/
def statistical : List Entry :=
  [⟨"mean", .atLeast 1, .statistical, "Arithmetic mean of values", Routine.mean⟩,
   ⟨"median", .atLeast 1, .statistical, "Median of values", Routine.median⟩,
   ⟨"mode", .atLeast 1, .statistical, "Most frequent value (first seen wins ties)",
     Routine.mode⟩,
   ⟨"variance", .atLeast 1, .statistical, "Sample variance (requires at least two values)",
     Routine.variance⟩,
   ⟨"stdev", .atLeast 1, .statistical,
     "Sample standard deviation (requires at least two values)", Routine.stdev⟩]

/-- The routines every calculator knows. -/
def standard : Registry := ofEntries (trigonometric ++ logarithmic ++ exponential ++ statistical)

/-- The routines of the standard registry under their own names, without the checks of an
entry. -/
def routines : List Routine :=
  (standard.entries.filter fun e => e.name == e.routine.name).map (·.routine)

theorem nodup_names_standard :
    ((trigonometric ++ logarithmic ++ exponential ++ statistical).map (·.name)).Nodup := by
  decide

end Reckoner.Registry
