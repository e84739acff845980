/-
# `Reckoner.Operator` — signs and operators

The symbols that stand before one operand (`Sign`) and between two
(`Operator`), how tightly they bind, and how they are spelled.  What they
compute is in `Reckoner.Operator.Arithmetic`.

From loosest to tightest: sums, products, signs, powers.  Sums and products
group to the left and powers to the right, so a sign before a power applies to
the whole power, and the exponent of a power may carry signs of its own.
-/
namespace Reckoner

/-- What stands before an operand. -/
inductive Sign where
  | minus
  | plus
  deriving DecidableEq, Repr

/-- What stands between two operands. -/
inductive Operator where
  | add
  | subtract
  | multiply
  | divide
  | modulo
  | power
  deriving DecidableEq, Repr

/-- The levels of the grammar, from loosest to tightest. -/
inductive Level where
  | sum
  | product
  | signed
  | power
  | atom
  deriving DecidableEq, Repr

/-- How tightly a level binds. -/
def Level.rank : Level → Nat
  | .sum => 1
  | .product => 2
  | .signed => 3
  | .power => 4
  | .atom => 5

/-- The level at which an operator joins its operands. -/
def Operator.level : Operator → Level
  | .add | .subtract => .sum
  | .multiply | .divide | .modulo => .product
  | .power => .power

/-- The loosest level at which the left operand may stand without parentheses. -/
def Operator.leftLevel : Operator → Level
  | .add | .subtract => .sum
  | .multiply | .divide | .modulo => .product
  | .power => .atom

/-- The loosest level at which the right operand may stand without parentheses. -/
def Operator.rightLevel : Operator → Level
  | .add | .subtract => .product
  | .multiply | .divide | .modulo => .signed
  | .power => .signed

/-- The sign with the spelling of an operator. -/
def Operator.sign? : Operator → Option Sign
  | .add => some .plus
  | .subtract => some .minus
  | _ => none

/-! ## Spelling -/

def Operator.symbol : Operator → String
  | .add => "+"
  | .subtract => "-"
  | .multiply => "*"
  | .divide => "/"
  | .modulo => "%"
  | .power => "**"

def Sign.symbol : Sign → String
  | .minus => "-"
  | .plus => "+"

def Operator.ofSymbol? (symbol : String) : Option Operator :=
  [.add, .subtract, .multiply, .divide, .modulo, .power].find? (·.symbol == symbol)

def Sign.ofSymbol? (symbol : String) : Option Sign :=
  [.minus, .plus].find? (·.symbol == symbol)

@[simp] theorem Operator.ofSymbol?_symbol (o : Operator) : ofSymbol? o.symbol = some o := by
  cases o <;> decide

@[simp] theorem Sign.ofSymbol?_symbol (s : Sign) : ofSymbol? s.symbol = some s := by
  cases s <;> decide

end Reckoner
