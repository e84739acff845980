/-
# `Reckoner.Expr` — expression trees

A tree is a number, a name, a sign before a tree, an operator between two trees
or a call of a named routine.  Parentheses leave no trace in a tree.

The measures of a tree that the limits on expressions are about:

* `size` counts nodes, `depth` the nodes of a longest path from the root.
* `recursion` counts, along a path, the steps into a sign's operand, an
  exponent or an argument: the steps that nest, as opposed to those along a
  chain of terms or factors.
-/
import Reckoner.Number
import Reckoner.Operator

namespace Reckoner

inductive Expr where
  | number (value : Number)
  | name (text : String)
  | signed (s : Sign) (operand : Expr)
  | binary (o : Operator) (left right : Expr)
  | call (routine : String) (arguments : List Expr)

namespace Expr

/-! ## Size and depth -/

mutual
/-- The number of nodes. -/
def size : Expr → Nat
  | .number _ | .name _ => 1
  | .signed _ e => 1 + e.size
  | .binary _ l r => 1 + l.size + r.size
  | .call _ es => 1 + sizeList es
def sizeList : List Expr → Nat
  | [] => 0
  | e :: es => e.size + sizeList es
end

mutual
/-- The number of nodes on a longest path from the root. -/
def depth : Expr → Nat
  | .number _ | .name _ => 1
  | .signed _ e => 1 + e.depth
  | .binary _ l r => 1 + max l.depth r.depth
  | .call _ es => 1 + depthList es
def depthList : List Expr → Nat
  | [] => 0
  | e :: es => max e.depth (depthList es)
end

mutual
/-- The most nesting steps on a path from the root. -/
def recursion : Expr → Nat
  | .number _ | .name _ => 0
  | .signed _ e => 1 + e.recursion
  | .binary .power l r => max l.recursion (1 + r.recursion)
  | .binary _ l r => max l.recursion r.recursion
  | .call _ es => 1 + recursionList es
def recursionList : List Expr → Nat
  | [] => 0
  | e :: es => max e.recursion (recursionList es)
end

/-! ## Names -/

mutual
/-- The names that stand for values, from left to right; the names of routines are not among
them. -/
def names : Expr → List String
  | .number _ => []
  | .name x => [x]
  | .signed _ e => e.names
  | .binary _ l r => l.names ++ r.names
  | .call _ es => namesList es
def namesList : List Expr → List String
  | [] => []
  | e :: es => e.names ++ namesList es
end

mutual
/-- The tree with `u` in the place of every name `x`. -/
def subst (x : String) (u : Expr) : Expr → Expr
  | .number v => .number v
  | .name y => if y = x then u else .name y
  | .signed s e => .signed s (subst x u e)
  | .binary o l r => .binary o (subst x u l) (subst x u r)
  | .call f es => .call f (substList x u es)
def substList (x : String) (u : Expr) : List Expr → List Expr
  | [] => []
  | e :: es => subst x u e :: substList x u es
end

end Expr

end Reckoner
