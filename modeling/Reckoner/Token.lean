/-
# `Reckoner.Token` — the words of an expression

The tokens of the grammar, plus one for a character that no token starts with:
such a character can follow nothing, and the place where it stands is the place
of the error.
-/
import Reckoner.Decimal.Literal
import Reckoner.Operator

namespace Reckoner

/-- A word of an expression. -/
inductive Token where
  | number (literal : Decimal.Literal)
  | name (text : String)
  | operator (o : Operator)
  | openParen
  | closeParen
  | comma
  /-- A character that starts no word. -/
  | stray (c : Char)
  deriving DecidableEq, Repr

def Token.text : Token → List Char
  | .number l => l.text
  | .name s => s.toList
  | .operator o => o.symbol.toList
  | .openParen => ['(']
  | .closeParen => [')']
  | .comma => [',']
  | .stray c => [c]

/-- A literal whose number exceeds the range of doubles. -/
def Token.outOfRange? : Token → Option Decimal.Literal
  | .number l => if l.value.isFinite then none else some l
  | _ => none

end Reckoner
