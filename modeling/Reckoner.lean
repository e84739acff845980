import Reckoner.Binary64.Basic
import Reckoner.Binary64.Remainder
import Reckoner.Binary64.Rounding
import Reckoner.Calculator
import Reckoner.Decimal.Literal
import Reckoner.Decimal.Shortest
import Reckoner.Decimal.Text
import Reckoner.Demo.Batch
import Reckoner.Demo.Hypotenuse
import Reckoner.Demo.Tour
import Reckoner.Expr
import Reckoner.Expr.Choice
import Reckoner.Expr.Eval
import Reckoner.Expr.Parse
import Reckoner.Grammar
import Reckoner.Measure.Convert
import Reckoner.Measure.Lookup
import Reckoner.Measure.Scale
import Reckoner.Measure.Table
import Reckoner.Number
import Reckoner.Operator
import Reckoner.Operator.Arithmetic
import Reckoner.Pattern
import Reckoner.Report
import Reckoner.Routine.Basic
import Reckoner.Routine.Exponential
import Reckoner.Routine.Logarithmic
import Reckoner.Routine.Registry
import Reckoner.Routine.Standard
import Reckoner.Routine.Statistical
import Reckoner.Routine.Trigonometric
import Reckoner.Settings
import Reckoner.Settings.Nesting
import Reckoner.Text.Blank
import Reckoner.Text.LowerCase
import Reckoner.Token
import Reckoner.Token.Lexer
import Reckoner.Proofs.Token.Munch
import Reckoner.Proofs.Token.Characters
import Reckoner.Proofs.Token.Layout
import Reckoner.Proofs.Grammar.Automaton
import Reckoner.Proofs.Grammar.Sentence
import Reckoner.Proofs.Grammar.Parse
import Reckoner.Proofs.Grammar.Leaves
import Reckoner.Proofs.Grammar.Depth
import Reckoner.Proofs.Grammar.Adjacent
import Reckoner.Proofs.Grammar.Viable
import Reckoner.Proofs.Grammar.Place
import Reckoner.Proofs.Grammar.Print
import Reckoner.Proofs.Grammar.Literals
import Reckoner.Proofs.Pattern
import Reckoner.Proofs.Choice.Words
import Reckoner.Proofs.Choice.Reach
import Reckoner.Proofs.Choice.Record
import Reckoner.Proofs.Choice.Fate
import Reckoner.Proofs.Choice.Atoms
import Reckoner.Proofs.Choice.Levels
import Reckoner.Proofs.Choice.Agreement
import Reckoner.Proofs.Settings.Marks
import Reckoner.Proofs.Settings.Nesting
import Reckoner.Proofs.Expr.Order
import Reckoner.Proofs.Expr.Finite
import Reckoner.Proofs.Binary64.Canonical
import Reckoner.Proofs.Binary64.Order
import Reckoner.Proofs.Binary64.Exact
import Reckoner.Proofs.Binary64.Integral
import Reckoner.Proofs.Binary64.Sign
import Reckoner.Proofs.Decimal.Value
import Reckoner.Proofs.Measure.Compatible
import Reckoner.Proofs.Routine.Registration
import Reckoner.Proofs.Routine.Domain
import Reckoner.Proofs.Calculator.Call
import Reckoner.Proofs.Expr.Subst
import Reckoner.Proofs.Expr.Scope
import Reckoner.Proofs.Settings.Paths
import Reckoner.Proofs.Settings.Surface
import Reckoner.Proofs.Settings.Beside
import Reckoner.Proofs.Settings.Repeated
import Reckoner.Proofs.Expr.Stack
import Reckoner.Proofs.Grammar.Size
import Reckoner.Proofs.Routine.Listing
import Reckoner.Proofs.Expr.Fault
import Reckoner.Proofs.Expr.Spelling
import Reckoner.Proofs.Calculator.Failure
import Reckoner.Proofs.Binary64.Nearest
import Reckoner.Proofs.Binary64.Rounded
import Reckoner.Proofs.Binary64.Gap
import Reckoner.Proofs.Binary64.TiesToEven
import Reckoner.Proofs.Binary64.Scientific
import Reckoner.Proofs.Binary64.Range
import Reckoner.Proofs.Binary64.Ranged
import Reckoner.Proofs.Binary64.SquareRoot
import Reckoner.Proofs.Binary64.Places
import Reckoner.Proofs.Binary64.Rescale
import Reckoner.Proofs.Number.Arithmetic
import Reckoner.Proofs.Routine.Averages
import Reckoner.Proofs.Routine.Spread
import Reckoner.Proofs.Operator.Modulo
import Reckoner.Proofs.Operator.Remainder
import Reckoner.Proofs.Calculator.Naming
import Reckoner.Proofs.Calculator.Rounding
import Reckoner.Proofs.Measure.Overflow
import Reckoner.Proofs.Measure.Exact
import Reckoner.Proofs.Measure.Names
import Reckoner.Proofs.Routine.Median
import Reckoner.Proofs.Routine.Mode
