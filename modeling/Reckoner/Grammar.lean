/-
# `Reckoner.Grammar` — which tokens are an expression, and which

The grammar as a relation between tokens and trees, one level for every
strength of binding:

    sum     ::= product  |  sum (+ -) product
    product ::= signed   |  product (* / %) signed
    signed  ::= power    |  (+ -) signed
    power   ::= atom     |  atom ** signed
    atom    ::= number | name | name ( ) | name ( arguments ) | ( sum )

The rules for sums, products and powers are one rule, since an operator knows
the levels of its operands.  A phrase of a tighter level is one of every looser
level.
-/
import Reckoner.Expr
import Reckoner.Token

namespace Reckoner

mutual
/-- `Derives k ts e`: at level `k` the tokens `ts` are a phrase, and its tree is `e`. -/
inductive Derives : Level → List Token → Expr → Prop where
  | number (l : Decimal.Literal) : Derives .atom [.number l] (.number l.value)
  | name (x : String) : Derives .atom [.name x] (.name x)
  | group {ts : List Token} {e : Expr} :
      Derives .sum ts e → Derives .atom (.openParen :: (ts ++ [.closeParen])) e
  | callNothing (f : String) :
      Derives .atom [.name f, .openParen, .closeParen] (.call f [])
  | call (f : String) {ts : List Token} {es : List Expr} :
      DerivesList ts es →
      Derives .atom (.name f :: .openParen :: (ts ++ [.closeParen])) (.call f es)
  | signed {o : Operator} {s : Sign} {ts : List Token} {e : Expr} :
      o.sign? = some s → Derives .signed ts e → Derives .signed (.operator o :: ts) (.signed s e)
  | binary (o : Operator) {ts us : List Token} {l r : Expr} :
      Derives o.leftLevel ts l → Derives o.rightLevel us r →
      Derives o.level (ts ++ .operator o :: us) (.binary o l r)
  | loosen {j k : Level} {ts : List Token} {e : Expr} :
      j.rank < k.rank → Derives k ts e → Derives j ts e

/-- `DerivesList ts es`: the tokens `ts` are phrases with commas between them, at least one, and
their trees are `es`. -/
inductive DerivesList : List Token → List Expr → Prop where
  | last {ts : List Token} {e : Expr} : Derives .sum ts e → DerivesList ts [e]
  | cons {ts us : List Token} {e : Expr} {es : List Expr} :
      Derives .sum ts e → DerivesList us es → DerivesList (ts ++ .comma :: us) (e :: es)
end

end Reckoner
