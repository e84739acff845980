/-
# `Reckoner.Calculator` — the calculator

A calculator is a registry of routines under some settings.  It evaluates texts,
calls routines on numbers and converts between units, and lists what it knows.

Evaluating a text goes through five checks, and the first that fails is
reported: its length, its nesting, its grammar, the range of its literals, and
its value.  Only a failure of the last notes the expression it belongs to.
-/
import Reckoner.Expr.Eval
import Reckoner.Expr.Parse
import Reckoner.Measure.Convert
import Reckoner.Routine.Standard
import Reckoner.Settings

namespace Reckoner

/-- Why a text has no value. -/
inductive Failure where
  | limit (fault : LimitFault)
  | parse (error : ParseError)
  | eval (text : String) (fault : EvalFault)

def Failure.report : Failure → Report
  | .limit fault => fault.report
  | .parse error => error.report
  | .eval text fault => fault.report.note "expression" (Text.trim text)

/-- The value of a text, whatever its size. -/
def evaluateText (r : Registry) (vars : Bindings) (text : String) : Except Failure Number := do
  let e ← (Expr.parse text).mapError .parse
  (e.eval r vars).mapError (.eval text)

/-- Why a routine that is called directly gives no number. -/
inductive CallFault where
  | unknownRoutine (name : String)
  | fault (f : Fault)
  deriving DecidableEq

/-- The report of a direct call.  Here a domain fault has a kind of its own, and the note names
the routine that the fault names. -/
def CallFault.report : CallFault → Report
  | .unknownRoutine name => unknownRoutineReport name
  | .fault f =>
    let kind := match f with
      | .domain .. => Kind.domain
      | .arity .. | .overflow _ => Kind.evaluation
    { kind, message := f.text, notes := [("function", f.routine)] }

/-- A registry under some settings. -/
structure Calculator where
  settings : Settings := {}
  registry : Registry := .standard

namespace Calculator

/-- The value of a text within the limits. -/
def evaluate (c : Calculator) (vars : Bindings) (text : String) : Except Failure Number := do
  (c.settings.check text).mapError .limit
  evaluateText c.registry vars text

/-- The values of several texts under the same variables. -/
def evaluateBatch (c : Calculator) (vars : Bindings) (texts : List String) :
    List (Except Failure Number) :=
  texts.map (c.evaluate vars)

/-- The value of a routine for a list of numbers. -/
def call (c : Calculator) (name : String) (xs : List Number) : Except CallFault Number :=
  match c.registry.get? name with
  | some entry => (entry.call xs).mapError .fault
  | none => .error (.unknownRoutine name)

/-- A number converted between two units and rounded to the precision. -/
def convert (c : Calculator) (x : Float) (source target : String) :
    Except ConversionFault Float :=
  (Measure.convertNamed x source target).map c.settings.round

/-- The names of the routines under the names of their categories, which are in alphabetical
order. -/
def routineNames (c : Calculator) : List (String × List String) :=
  (c.registry.byCategory.map fun g => (g.1.text, g.2)).mergeSort fun a b => a.1 ≤ b.1

/-! ## Scripts -/

/-- A line of a script: a text, and possibly a variable that takes its value. -/
structure Line where
  text : String
  target : Option String := none

/-- The variables after a line.  A line that fails changes none. -/
def assign (vars : Bindings) (target : Option String) (outcome : Except Failure Number) :
    Bindings :=
  match target, outcome with
  | some x, .ok v => vars.bind x v
  | _, _ => vars

/-- The outcomes of the lines of a script, each under the variables set before it. -/
def runScript (c : Calculator) (vars : Bindings) : List Line → List (Except Failure Number)
  | [] => []
  | l :: ls =>
    let outcome := c.evaluate vars l.text
    outcome :: c.runScript (assign vars l.target outcome) ls

end Calculator

end Reckoner
