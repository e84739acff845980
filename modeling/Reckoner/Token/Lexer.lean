/-
# `Reckoner.Token.Lexer` — a text as tokens

`lex` cuts a text into tokens.  Each token is the longest that starts where it
starts: `**` is one operator, `1e5` one number, `1e` a number and a name.
Between tokens, spaces, tabs and line ends are passed over; other blanks are
not, and come out as stray characters.

A lexeme keeps the text from its first character on, which shares the text that
was read.  `columnOf` turns that into a place a reader can find.
-/
import Reckoner.Token

namespace Reckoner

/-- The separators that may stand between two tokens. -/
def isSeparator (c : Char) : Bool := c == ' ' || c == '\t' || c == '\r' || c == '\n'

def isNameStart (c : Char) : Bool := c.isAlpha || c == '_'

def isNamePart (c : Char) : Bool := c.isAlphanum || c == '_'

/-- The token that starts with the character `c`, which is no separator, and the rest of the
text. -/
def Token.first (c : Char) (cs : List Char) : Token × List Char :=
  if c.isDigit then
    let (l, rest) := Decimal.Literal.read c cs
    (.number l, rest)
  else if isNameStart c then
    (.name (String.ofList (c :: cs.takeWhile isNamePart)), cs.dropWhile isNamePart)
  else
    match c, cs with
    | '*', '*' :: rest => (.operator .power, rest)
    | '*', _ => (.operator .multiply, cs)
    | '+', _ => (.operator .add, cs)
    | '-', _ => (.operator .subtract, cs)
    | '/', _ => (.operator .divide, cs)
    | '%', _ => (.operator .modulo, cs)
    | '(', _ => (.openParen, cs)
    | ')', _ => (.closeParen, cs)
    | ',', _ => (.comma, cs)
    | _, _ => (.stray c, cs)

theorem Token.text_append_rest (c : Char) (cs : List Char) :
    (first c cs).1.text ++ (first c cs).2 = c :: cs := by
  unfold first
  split
  · exact Decimal.Literal.text_append_rest c cs
  · split
    · simp [text]
    · split <;> simp [text, Operator.symbol]

theorem Token.text_first_ne_nil (c : Char) (cs : List Char) : (first c cs).1.text ≠ [] := by
  unfold first
  split
  · simp [text, Decimal.Literal.read, Decimal.Literal.text]
  · split
    · simp [text]
    · split <;> simp [text, Operator.symbol]

theorem Token.length_rest_lt (c : Char) (cs : List Char) :
    (first c cs).2.length < (c :: cs).length := by
  have h := congrArg List.length (text_append_rest c cs)
  have := List.length_pos_iff.mpr (text_first_ne_nil c cs)
  simp only [List.length_append] at h
  omega

/-- A token where it stands. -/
structure Lexeme where
  token : Token
  /-- The text from the token's first character on. -/
  here : List Char

def lex : List Char → List Lexeme
  | [] => []
  | c :: cs =>
    if isSeparator c then lex cs
    else ⟨(Token.first c cs).1, c :: cs⟩ :: lex (Token.first c cs).2
termination_by cs => cs.length
decreasing_by
  · simp
  · exact Token.length_rest_lt c cs

/-! ## Places -/

/-- The characters of the last line. -/
def lastLine (cs : List Char) : List Char := (cs.reverse.takeWhile (· != '\n')).reverse

/-- The column, counted from one, of the place in `text` at which `rest` is still to come. -/
def columnOf (text rest : List Char) : Nat :=
  (lastLine (text.take (text.length - rest.length))).length + 1

end Reckoner
