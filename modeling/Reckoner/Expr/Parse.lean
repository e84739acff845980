/-
# `Reckoner.Expr.Parse` — from tokens to a tree

Tokens are read once, from left to right, by an automaton with a stack of
*frames*: the constructions that have been begun and wait for an operand.
While an operand is due, a number or a name supplies one, and a sign or a
parenthesis begins a construction.  Once an operand is there, an operator, a
comma or a closing parenthesis first completes every frame that binds at least
as tightly, and then begins or ends a construction of its own.

A step never takes back a token.  Reading therefore stops exactly at the first
token that cannot follow those before it, and the state says what was due there.
-/
import Reckoner.Expr
import Reckoner.Report
import Reckoner.Text.Blank
import Reckoner.Token.Lexer

namespace Reckoner

/-- A construction that waits for an operand. -/
inductive Frame where
  | signed (s : Sign)
  | binary (o : Operator) (left : Expr)
  | group
  /-- A call with the arguments so far, the latest first. -/
  | call (routine : String) (arguments : List Expr)

def Frame.isOpen : Frame → Bool
  | .group | .call .. => true
  | .signed _ | .binary .. => false

/-- Completes the frames on top of the stack that bind at least as tightly as `k`. -/
def settle (k : Level) : List Frame → Expr → List Frame × Expr
  | .signed s :: outer, e =>
    if k.rank ≤ Level.signed.rank then settle k outer (.signed s e) else (.signed s :: outer, e)
  | .binary o l :: outer, e =>
    if k.rank ≤ o.level.rank then settle k outer (.binary o l e) else (.binary o l :: outer, e)
  | stack, e => (stack, e)

/-! ## The automaton -/

/-- What has been read so far. -/
inductive State where
  /-- An operand is due. -/
  | due (stack : List Frame)
  /-- A name has been read, which a parenthesis may make the name of a routine. -/
  | named (stack : List Frame) (x : String)
  /-- An operand has been read. -/
  | done (stack : List Frame) (e : Expr)

/-- The state after the operand `e` and one more token. -/
def afterOperand (stack : List Frame) (e : Expr) : Token → Option State
  | .operator o =>
    let (outer, left) := settle o.leftLevel stack e
    some (.due (.binary o left :: outer))
  | .comma =>
    match settle .sum stack e with
    | (.call f es :: outer, last) => some (.due (.call f (last :: es) :: outer))
    | _ => none
  | .closeParen =>
    match settle .sum stack e with
    | (.group :: outer, inner) => some (.done outer inner)
    | (.call f es :: outer, last) => some (.done outer (.call f (last :: es).reverse))
    | _ => none
  | _ => none

/-- The state after one more token, unless the token cannot follow. -/
def State.step : State → Token → Option State
  | .due stack, .number l => some (.done stack (.number l.value))
  | .due stack, .name x => some (.named stack x)
  | .due stack, .openParen => some (.due (.group :: stack))
  | .due stack, .operator o => o.sign?.map fun s => .due (.signed s :: stack)
  | .due (.call f [] :: outer), .closeParen => some (.done outer (.call f []))
  | .due _, _ => none
  | .named stack f, .openParen => some (.due (.call f [] :: stack))
  | .named stack x, t => afterOperand stack (.name x) t
  | .done stack e, t => afterOperand stack e t

/-- The tree, if the operand `e` may be the last thing read. -/
def finishWith (stack : List Frame) (e : Expr) : Option Expr :=
  match settle .sum stack e with
  | ([], whole) => some whole
  | _ => none

/-- The tree, if nothing more has to be read. -/
def State.finish : State → Option Expr
  | .due _ => none
  | .named stack x => finishWith stack (.name x)
  | .done stack e => finishWith stack e

/-! ## Reading -/

/-- What is due at a place of a text. -/
inductive Expectation where
  | operand
  | operator
  | finishOrOperator
  deriving DecidableEq, Repr

/-- After an operand an operator is due, or the end unless a parenthesis is open. -/
def State.expected : State → Expectation
  | .due _ => .operand
  | .named stack _ | .done stack _ =>
    if stack.any Frame.isOpen then .operator else .finishOrOperator

/-- Where reading stopped: what was due, and the tokens from there on. -/
structure Stop where
  expected : Expectation
  unread : List Token
  deriving DecidableEq, Repr

/-- Reads tokens to their end, or to the first that cannot follow. -/
def State.run : State → List Token → Except Stop Expr
  | q, [] =>
    match q.finish with
    | some e => .ok e
    | none => .error ⟨q.expected, []⟩
  | q, t :: ts =>
    match q.step t with
    | some q' => q'.run ts
    | none => .error ⟨q.expected, t :: ts⟩

def Expr.ofTokens (ts : List Token) : Except Stop Expr := State.run (.due []) ts

/-! ## From text -/

/-- Why a text is no expression. -/
inductive ParseError where
  /-- It holds blanks only. -/
  | empty
  /-- The token at a column cannot follow those before it. -/
  | unexpected (text : String) (column : Nat) (expected : Expectation)
  /-- A literal exceeds the range of doubles. -/
  | literalOutOfRange (literal : Decimal.Literal)

def Expectation.text : Expectation → String
  | .operand => "an operand"
  | .operator => "an operator"
  | .finishOrOperator => "end of input or an operator"

def ParseError.report : ParseError → Report
  | .empty => { kind := .malformed, message := "Empty expression" }
  | .unexpected text column expected =>
    { kind := .malformed
      message := "Invalid syntax: expected " ++ expected.text
      notes := [("expression", text), ("position", toString column)] }
  | .literalOutOfRange l =>
    { kind := .malformed
      message := "Numeric literal out of range"
      notes := [("literal", String.ofList l.text)] }

/-- The text from the first of the unread tokens on, when `lexemes` are those of the text. -/
def textAt (lexemes : List Lexeme) (unread : List Token) : List Char :=
  match lexemes.drop (lexemes.length - unread.length) with
  | l :: _ => l.here
  | [] => []

/-- The tree of a text. -/
def Expr.parse (text : String) : Except ParseError Expr :=
  let cs := text.toList
  if Text.isEmpty text then .error .empty
  else
    let lexemes := lex cs
    let tokens := lexemes.map (·.token)
    match Expr.ofTokens tokens with
    | .error stop =>
      .error (.unexpected text (columnOf cs (textAt lexemes stop.unread)) stop.expected)
    | .ok e =>
      match tokens.findSome? Token.outOfRange? with
      | some l => .error (.literalOutOfRange l)
      | none => .ok e

end Reckoner
