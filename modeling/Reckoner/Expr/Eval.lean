/-
# `Reckoner.Expr.Eval` — the value of a tree

Children are evaluated before their parent and from left to right, and the first
fault ends the evaluation; no parent adds to a fault of its children.  A call
looks its routine up before it evaluates any argument.

A name is looked up among the constants first, so a variable cannot change the
meaning of `pi` or `e`.
-/
import Reckoner.Expr
import Reckoner.Operator.Arithmetic
import Reckoner.Routine.Registry
import Reckoner.Routine.Trigonometric

namespace Reckoner

/-- Variables with their values, the latest first. -/
abbrev Bindings := List (String × Number)

def Bindings.get? (vars : Bindings) (x : String) : Option Number := vars.lookup x

/-- Binds a variable; an earlier binding is hidden. -/
def Bindings.bind (vars : Bindings) (x : String) (v : Number) : Bindings := (x, v) :: vars

/-- The names with a fixed meaning. -/
def constant? : String → Option Number
  | "pi" => some Routine.piValue
  | "e" => some 2.718281828459045
  | _ => none

/-- Why a tree has no value. -/
inductive EvalFault where
  | unknownVariable (name : String)
  | unknownRoutine (name : String)
  | operator (o : Operator) (fault : OperatorFault)
  /-- The routine called by this name gives no number. -/
  | call (name : String) (fault : Fault)
  deriving DecidableEq

/-- The report of a routine that is not registered. -/
def unknownRoutineReport (name : String) : Report :=
  { kind := .malformed, message := "Unknown function: " ++ name, notes := [("function", name)] }

def EvalFault.report : EvalFault → Report
  | .unknownVariable x =>
    { kind := .malformed, message := "Unknown variable: " ++ x, notes := [("variable", x)] }
  | .unknownRoutine f => unknownRoutineReport f
  | .operator o fault => fault.report.note "operator" o.symbol
  | .call f fault =>
    { kind := .evaluation, message := fault.text, notes := [("function", f)] }

def evalName (vars : Bindings) (x : String) : Except EvalFault Number :=
  match constant? x with
  | some v => .ok v
  | none =>
    match vars.get? x with
    | some v => .ok v
    | none => .error (.unknownVariable x)

mutual
/-- The value of a tree. -/
def Expr.eval (r : Registry) (vars : Bindings) : Expr → Except EvalFault Number
  | .number v => .ok v
  | .name x => evalName vars x
  | .signed s e => do
    let v ← e.eval r vars
    return s.apply v
  | .binary o a b => do
    let x ← a.eval r vars
    let y ← b.eval r vars
    (o.apply x y).mapError (.operator o)
  | .call f es =>
    match r.get? f with
    | none => .error (.unknownRoutine f)
    | some entry => do
      let vs ← evalList r vars es
      (entry.call vs).mapError (.call f)
def Expr.evalList (r : Registry) (vars : Bindings) : List Expr → Except EvalFault (List Number)
  | [] => .ok []
  | e :: es => do
    let v ← e.eval r vars
    let vs ← evalList r vars es
    return v :: vs
end

end Reckoner
