/-
# `Reckoner.Demo.Tour` — what a calculator can do

A tour through the default calculator: the units it knows and some conversions,
the routines it knows and some values, which units go together, and how failures
read.
-/
import Reckoner.Calculator

namespace Reckoner.Demo

/-! ## Columns and optional values -/

/-- A text padded with spaces on the right to a width. -/
def column (width : Nat) (s : String) : String :=
  s ++ String.ofList (List.replicate (width - s.length) ' ')

def optional (render : α → String) : Option α → String
  | some x => "Some(" ++ render x ++ ")"
  | none => "None"

/-- A text between quotes.  The texts shown hold none themselves. -/
def quoted (s : String) : String := "\"" ++ s ++ "\""

/-- A number that may be missing, with a point in it. -/
def numberOrNone (outcome : Except ε Number) : String :=
  optional (fun v => Decimal.pointText v.toFloat) outcome.toOption

/-- A section: an empty line, a heading, and its lines. -/
def block (heading : String) (lines : List String) : List String := "" :: heading :: lines

/-- Names under headings, the headings in a column. -/
def listing (width : Nat) (groups : List (String × List String)) : List String :=
  groups.map fun g => "  " ++ column width g.1 ++ " " ++ ", ".intercalate g.2

/-! ## Lines -/

def standard : Calculator := {}

def conversionLine (x : Float) (source target : String) : String :=
  let asked := "  " ++ Decimal.text x ++ " " ++ source
  match standard.convert x source target with
  | .ok y => asked ++ " = " ++ Decimal.text y ++ " " ++ target
  | .error fault => asked ++ " -> " ++ target ++ ": " ++ optional quoted (some fault.report.text)

def valueLine (text : String) : String :=
  "  " ++ text ++ " = " ++ numberOrNone (standard.evaluate [] text)

def compatibilityLine (source target : String) : String :=
  let (compatible, trouble) := match Measure.compatibleNamed source target with
    | .ok b => (b, none)
    | .error fault => (false, some fault.report.text)
  "  " ++ source ++ " / " ++ target ++ ": " ++ toString compatible ++ " "
    ++ optional quoted trouble

/-- The line of an expression that fails. -/
def failureLine (text : String) : String :=
  let told := match standard.evaluate [] text with
    | .ok _ => ""
    | .error failure => failure.report.text
  "  " ++ column 16 text ++ " -> " ++ told

/-- The last failure of the tour, which is one of a conversion. -/
def incompatibleLine : String :=
  let told := match standard.convert 1.0 "kilogram" "second" with
    | .ok _ => ""
    | .error fault => fault.report.text
  "  kilogram -> second -> " ++ told

/-- The values of which the tour shows the spread. -/
def samples : List Number := [2.0, 4.0, 4.0, 4.0, 5.0, 5.0, 7.0, 9.0]

def tour : List String :=
  "Available units:" :: listing 12 Measure.byCategory
  ++ block "Unit conversions:"
      [conversionLine 5.0 "kilometer" "mile",
       conversionLine 32.0 "fahrenheit" "celsius",
       conversionLine 220.0 "pounds" "kg",
       conversionLine 1.0 "liter" "gallons",
       conversionLine 100.0 "km/h" "mph"]
  ++ block "Available functions:"
      (listing 14 standard.routineNames)
  ++ block "Scientific functions:"
      (["sin(30)", "cos(60)", "log10(1000)", "ln(e)", "sqrt(144)",
         "nthroot(-27, 3)"].map valueLine
       ++ ["  stdev(2, 4, 4, 4, 5, 5, 7, 9) = "
            ++ numberOrNone (standard.call "stdev" samples)])
  ++ block "Compound expressions:"
      (["2 + 3 * 4", "(2 + 3) * 4", "2 ** 3 ** 2", "sqrt(3 ** 2 + 4 ** 2)",
         "mean(1, 2, 3) * pi"].map valueLine)
  ++ block "Compatibility checks:"
      [compatibilityLine "kilometer" "mile",
       compatibilityLine "kilometer" "kilogram",
       compatibilityLine "meter" "furlong",
       "  factor foot -> inch: " ++
          numberOrNone ((Measure.factorNamed "foot" "inch").map Number.ofFloat)]
  ++ block "Error handling:"
      (["1 / 0", "sqrt(-1)", "unknown_func(5)", "2 +", "x + 1"].map failureLine
       ++ [incompatibleLine])

end Reckoner.Demo
