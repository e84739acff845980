/-
# `Reckoner.Expr.Choice` — expressions by ordered choice

The grammar of expressions as rules of ordered choice on characters, the builders
that make a tree of the nodes, and the message for a text that does not match.
This is how the language is written down for its users.  `Expr.parse` reads it in
one pass over tokens instead; `parsesAs_iff` says that the two agree.
-/
import Reckoner.Expr.Parse
import Reckoner.Pattern

namespace Reckoner

/-- The rules, in the order in which messages name them. -/
inductive Rule where
  | finish
  | expression
  | sum
  | product
  | signed
  | power
  | call
  | arguments
  | group
  | number
  | name
  | operator (o : Operator)
  deriving DecidableEq, Repr

namespace Rule

def all : List Rule :=
  [finish, expression, sum, product, signed, power, call, arguments, group, number, name,
    operator .add, operator .subtract, operator .power, operator .multiply, operator .divide,
    operator .modulo]

/-- What a reader is told to have been due where a rule was tried in vain. -/
def text : Rule → String
  | finish => "end of input"
  | sum | product | signed | power => "an operand"
  | number => "a number"
  | name => "a name"
  | call => "a function call"
  | arguments => "function arguments"
  | group => "a parenthesised expression"
  | operator _ => "an operator"
  | expression => "a valid token"

/-- The name of a rule in the messages of the builders. -/
def title : Rule → String
  | finish => "EOI"
  | expression => "expression"
  | sum => "expr"
  | product => "mul_expr"
  | signed => "unary"
  | power => "power"
  | call => "function_call"
  | arguments => "args"
  | group => "group"
  | number => "number"
  | name => "identifier"
  | operator .add => "PLUS"
  | operator .subtract => "MINUS"
  | operator .power => "POW"
  | operator .multiply => "STAR"
  | operator .divide => "SLASH"
  | operator .modulo => "MOD"

end Rule

/-! ## The grammar -/

namespace Pattern

/-- Separators, which may stand between the words of an expression. -/
def gap : Pattern Rule := .run isSeparator

/-- One after the other, with separators between them. -/
def seq (a b : Pattern Rule) : Pattern Rule := .cat a (.cat gap b)

/-- Any number of times, with separators between them. -/
def many (a : Pattern Rule) : Pattern Rule := .opt (.cat a (.star (.cat gap a)))

def oneOf (o : Operator) : List Operator → Pattern Rule
  | [] => .rule (.operator o)
  | o' :: os => .alt (.rule (.operator o)) (oneOf o' os)

/-- Operands with some of the operators `o :: os` between them. -/
def chain (o : Operator) (os : List Operator) (operand : Rule) : Pattern Rule :=
  seq (.rule operand) (many (seq (oneOf o os) (.rule operand)))

def digits : Pattern Rule := .cat (.one Char.isDigit) (.run Char.isDigit)

/-- What stands on either side of a power, if it is no power itself. -/
def atom : Pattern Rule :=
  .alt (.rule .call) (.alt (.rule .number) (.alt (.rule .name) (.rule .group)))

end Pattern

open Pattern in
/-- What a rule matches.  Numbers and names are words: nothing stands between their parts. -/
def Rule.body : Rule → Pattern Rule
  | expression => seq .start (seq (.rule sum) (.rule finish))
  | sum => chain .add [.subtract] product
  | product => chain .multiply [.divide, .modulo] signed
  | signed => .alt (seq (oneOf .add [.subtract]) (.rule signed)) (.rule power)
  | power => seq atom (.opt (seq (.rule (operator .power)) (.rule signed)))
  | call => seq (.rule name) (seq (.chars ['(']) (seq (.opt (.rule arguments)) (.chars [')'])))
  | arguments => seq (.rule sum) (many (seq (.chars [',']) (.rule sum)))
  | group => seq (.chars ['(']) (seq (.rule sum) (.chars [')']))
  | number =>
    .cat digits (.cat (.opt (.cat (.chars ['.']) digits))
      (.opt (.cat (.one fun c => c == 'e' || c == 'E')
        (.cat (.opt (.alt (.chars ['+']) (.chars ['-']))) digits))))
  | name => .cat (.one isNameStart) (.run isNamePart)
  | operator o => .chars o.symbol.toList
  | finish => .stop

/-! ## The tree of a node

The builders trust the shape of the nodes no more than they have to: what the
grammar never leaves is answered by a report. -/

def malformed (message : String) : Report := { kind := .malformed, message }

/-- The number of a literal, if it is in range. -/
def buildNumber (text : List Char) : Except Report Expr :=
  match text with
  | [] => .error ((malformed "Invalid numeric literal").note "literal" "")
  | d :: ds =>
    let (l, rest) := Decimal.Literal.read d ds
    if d.isDigit && rest.isEmpty then
      if l.value.isFinite then .ok (.number l.value)
      else .error (ParseError.literalOutOfRange l).report
    else .error ((malformed "Invalid numeric literal").note "literal" (String.ofList text))

def buildOperator (k : Level) : Node Rule → Except Report Operator
  | .node (.operator o) text _ => if o.level = k then .ok o else ofText text
  | .node _ text _ => ofText text
where
  ofText (text : List Char) : Except Report Operator :=
    match Operator.ofSymbol? (String.ofList text) with
    | some o => .ok o
    | none => .error (malformed ("Unsupported operator: " ++ String.ofList text))

def buildSign : Node Rule → Except Report Sign
  | .node _ text _ =>
    match Sign.ofSymbol? (String.ofList text) with
    | some s => .ok s
    | none => .error (malformed ("Unsupported unary operator: " ++ String.ofList text))

mutual
/-- The tree of a node that stands where a phrase of level `k` was due. -/
def Node.build : Level → Node Rule → Except Report Expr
  | .sum, .node _ _ inner => buildChain .sum .product inner
  | .product, .node _ _ inner => buildChain .product .signed inner
  | .signed, .node _ _ inner => buildSigned inner
  | .power, .node _ _ inner => buildPower inner
  | .atom, .node .number text _ => buildNumber text
  | .atom, .node .name text _ => .ok (.name (String.ofList text))
  | .atom, .node .group _ inner => buildGroup inner
  | .atom, .node .call _ inner => buildCall inner
  | .atom, .node r _ _ =>
    .error (malformed ("Unexpected rule in primary expression: " ++ r.title))
/-- Operands of level `j` with operators of level `k` between them. -/
def buildChain (k j : Level) : List (Node Rule) → Except Report Expr
  | [] => .error (malformed "Expected an operand")
  | n :: ns => do buildRest k j (← n.build j) ns
/-- The operators and operands behind the tree `l`, which is their left operand. -/
def buildRest (k j : Level) (l : Expr) : List (Node Rule) → Except Report Expr
  | [] => .ok l
  | [n] => do
    let _ ← buildOperator k n
    .error (malformed "Expected an operand")
  | n :: m :: ns => do
    let o ← buildOperator k n
    let r ← m.build j
    buildRest k j (.binary o l r) ns
/-- A sign and its operand, or a power. -/
def buildSigned : List (Node Rule) → Except Report Expr
  | [] => .error (malformed "Expected an operand")
  | .node (.operator .add) text inner :: ns => buildOperand (.node (.operator .add) text inner) ns
  | .node (.operator .subtract) text inner :: ns =>
    buildOperand (.node (.operator .subtract) text inner) ns
  | .node .power text inner :: _ => (Node.node .power text inner).build .power
  | .node r _ _ :: _ => .error (malformed ("Unexpected rule in unary expression: " ++ r.title))
/-- The operand behind a sign. -/
def buildOperand (sign : Node Rule) : List (Node Rule) → Except Report Expr
  | [] => do
    let _ ← buildSign sign
    .error (malformed "Expected an operand")
  | n :: _ => do
    let s ← buildSign sign
    return .signed s (← n.build .signed)
/-- What stands to the left of a power, with or without an exponent. -/
def buildPower : List (Node Rule) → Except Report Expr
  | [] => .error (malformed "Expected an operand")
  | n :: ns => do buildExponent (← n.build .atom) ns
/-- The exponent behind the tree `base`, if there is one. -/
def buildExponent (base : Expr) : List (Node Rule) → Except Report Expr
  | [] => .ok base
  | [.node (.operator .power) _ _] => .error (malformed "Expected an exponent")
  | .node (.operator .power) _ _ :: n :: _ => return .binary .power base (← n.build .signed)
  | .node _ text _ :: _ =>
    .error (malformed ("Unexpected token after operand: " ++ String.ofList text))
def buildGroup : List (Node Rule) → Except Report Expr
  | [] => .error (malformed "Expected an expression")
  | n :: _ => n.build .sum
/-- A call: the name, and the arguments if there are any. -/
def buildCall : List (Node Rule) → Except Report Expr
  | [] => .error (malformed "Expected a function name")
  | [.node _ text _] => .ok (.call (String.ofList text) [])
  | .node _ text _ :: .node _ _ inner :: _ =>
    return .call (String.ofList text) (← buildArguments inner)
def buildArguments : List (Node Rule) → Except Report (List Expr)
  | [] => .ok []
  | n :: ns => do
    let e ← n.build .sum
    let es ← buildArguments ns
    return e :: es
end

/-! ## Reading a text -/

/-- What was due where rules were tried in vain, each word once. -/
def Tried.expected (t : Tried Rule) : List String :=
  ((Rule.all.filter t.rules.contains).map Rule.text).eraseReps

/-- The report of a text that does not match. -/
def Tried.report (t : Tried Rule) (text : String) : Report :=
  { kind := .malformed
    message :=
      if t.expected.isEmpty then "Invalid syntax"
      else "Invalid syntax: expected " ++ " or ".intercalate t.expected
    notes := [("expression", text), ("position", toString (columnOf text.toList t.place))] }

/-- What a reader gets of a match of the whole text. -/
def Outcome.read (text : String) : Outcome Rule → Except Report Expr
  | .missing t => .error (t.report text)
  | .found (.node _ _ (n :: _) :: _) _ _ => n.build .sum
  | .found _ _ _ => .error (malformed "Expected an expression")

/-- `ParsesAs text r`: reading `text` by ordered choice comes to `r`. -/
def ParsesAs (text : String) (r : Except Report Expr) : Prop :=
  if Text.isEmpty text then r = .error ParseError.empty.report
  else ∃ o, Matches Rule.body text.toList (.rule .expression) text.toList ⟨text.toList, []⟩ o ∧
    r = o.read text

end Reckoner
