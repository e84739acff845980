/-
# `Reckoner.Text.Blank` — blank characters, and text without its margins

A character is *blank* when it has Unicode's `White_Space` property.  Blanks
decide three things: whether a line is empty, what surrounds the name of a unit,
and which characters the nesting gauge passes over.  The separators *between
tokens* are a smaller set and belong to the lexer.
-/
namespace Reckoner.Text

/-- The ranges of code points with the property `White_Space`, first and last included. -/
def blankRanges : List (Nat × Nat) :=
  [(0x09, 0x0D), (0x20, 0x20), (0x85, 0x85), (0xA0, 0xA0), (0x1680, 0x1680),
   (0x2000, 0x200A), (0x2028, 0x2029), (0x202F, 0x202F), (0x205F, 0x205F),
   (0x3000, 0x3000)]

/-- A blank character is one in `blankRanges`. -/
def isBlank (c : Char) : Bool :=
  blankRanges.any fun r => r.1 ≤ c.toNat && c.toNat ≤ r.2

/-- There are twenty-five blank characters. -/
example : (blankRanges.map fun r => r.2 + 1 - r.1).sum = 25 := by decide

/-! ## Margins -/

/-- The characters from the first to the last that is not blank. -/
def trimBlanks (cs : List Char) : List Char :=
  ((cs.dropWhile isBlank).reverse.dropWhile isBlank).reverse

def trim (s : String) : String := String.ofList (trimBlanks s.toList)

/-- A text is empty when it holds blanks only. -/
def isEmpty (s : String) : Bool := s.toList.all isBlank

end Reckoner.Text
