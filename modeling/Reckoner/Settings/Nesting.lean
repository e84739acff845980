/-
# `Reckoner.Settings.Nesting` — how deeply a text nests

A gauge passes over the characters of a text, blanks left out, and keeps three
counts: the open parentheses, the powers since the innermost of them was opened
— one count for each open parenthesis — and the signs in a row.  Their sum is
the reading of the gauge, and the nesting depth of a text its highest reading.

A plus or minus counts as a sign whether or not it stands between two operands:
then the run is one longer than the signs in it.  Any other character ends a run
of signs, while powers are forgotten only when their parenthesis is closed.
-/
import Reckoner.Text.Blank

namespace Reckoner

/-- The characters that nesting depends on. -/
inductive Mark where
  | openParen
  | closeParen
  | sign
  | power
  | other
  deriving DecidableEq, Repr

/-- The marks of a text without blanks.  Two stars in a row are one mark. -/
def marks : List Char → List Mark
  | [] => []
  | '*' :: '*' :: cs => .power :: marks cs
  | '(' :: cs => .openParen :: marks cs
  | ')' :: cs => .closeParen :: marks cs
  | '+' :: cs => .sign :: marks cs
  | '-' :: cs => .sign :: marks cs
  | _ :: cs => .other :: marks cs

/-- The counts that a text has led to so far. -/
structure Gauge where
  /-- The powers before each open parenthesis, the innermost first. -/
  outer : List Nat := []
  /-- The powers since the innermost parenthesis was opened. -/
  powers : Nat := 0
  /-- The signs in a row. -/
  signs : Nat := 0
  deriving DecidableEq, Repr

def Gauge.reading (g : Gauge) : Nat := g.outer.length + g.signs + g.powers

/-- The counts after one more mark.  A parenthesis that closes nothing is passed over. -/
def Gauge.step (g : Gauge) : Mark → Gauge
  | .openParen => { outer := g.powers :: g.outer }
  | .closeParen =>
    match g.outer with
    | [] => { g with signs := 0 }
    | p :: outer => { outer, powers := p }
  | .sign => { g with signs := g.signs + 1 }
  | .power => { g with powers := g.powers + 1, signs := 0 }
  | .other => { g with signs := 0 }

/-- The highest reading on the way through some marks, the start left out. -/
def Gauge.peak (g : Gauge) : List Mark → Nat
  | [] => 0
  | m :: ms => max (g.step m).reading ((g.step m).peak ms)

/-- The nesting depth of a text. -/
def nestingDepth (text : String) : Nat :=
  ({} : Gauge).peak (marks (text.toList.filter fun c => !Text.isBlank c))

/-- Signs, powers and parentheses add up; terms and factors without powers do not. -/
example : nestingDepth "1 + 2 * 3 - 4" = 1 ∧ nestingDepth "2**--(3)" = 3 ∧
    nestingDepth "f((1), (2))" = 2 := by decide

end Reckoner
