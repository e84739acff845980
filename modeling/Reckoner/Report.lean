/-
# `Reckoner.Report` — how a failure is told

Every failure of the calculator has a type of its own that says what went wrong.
A *report* is what a reader gets to see of it: the kind of failure, a sentence,
and notes, which are pairs of a key and a value in the order in which they were
attached.
-/
namespace Reckoner

inductive Kind where
  /-- A text that is no expression, or a name that stands for nothing. -/
  | malformed
  /-- A well-formed expression without a value. -/
  | evaluation
  /-- Division by zero: an evaluation failure that can be told apart. -/
  | zeroDivision
  /-- Arguments outside the domain of a routine that was called directly. -/
  | domain
  /-- A name of no unit. -/
  | unit
  /-- Two units of different dimensions. -/
  | dimensionality
  /-- A failure that no rule foresees. -/
  | unexpected
  deriving DecidableEq, Repr

/-- The title of a kind.  Division by zero goes under the title of evaluation failures. -/
def Kind.title : Kind → String
  | .malformed => "SyntaxError"
  | .evaluation | .zeroDivision => "EvaluationError"
  | .domain => "DomainError"
  | .unit => "UnitError"
  | .dimensionality => "DimensionalityError"
  | .unexpected => "UnexpectedError"

/-- What a reader sees of a failure. -/
structure Report where
  kind : Kind
  message : String
  notes : List (String × String) := []
  deriving DecidableEq, Repr

namespace Report

/-- Attaches a note.  A report of an unexpected failure takes none. -/
def note (r : Report) (key value : String) : Report :=
  if r.kind = .unexpected then r else { r with notes := r.notes ++ [(key, value)] }

def note? (r : Report) (key : String) : Option String := r.notes.lookup key

def isZeroDivision (r : Report) : Bool := r.kind = .zeroDivision

/-- Notes in parentheses, nothing if there are none. -/
def notesText (notes : List (String × String)) : String :=
  if notes.isEmpty then ""
  else " (" ++ " | ".intercalate (notes.map fun n => n.1 ++ ": " ++ n.2) ++ ")"

/-- The sentence with the notes behind it. -/
def text (r : Report) : String :=
  if r.kind = .unexpected then "Unexpected error: " ++ r.message
  else r.message ++ notesText r.notes

end Report

end Reckoner
