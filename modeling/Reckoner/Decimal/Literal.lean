/-
# `Reckoner.Decimal.Literal` — unsigned decimal literals

A literal is a run of digits, then possibly a point and more digits, then
possibly an exponent: `12`, `0.5`, `1.5e-4`.  Digits are required on both sides
of a point and after the mark of an exponent; a point or a mark that lacks them
does not belong to the literal.

* `read` takes the longest literal off the front of a text.
* `text` gives back its characters, `text_append_rest` says that nothing is lost.
* `exact` is the number a literal denotes, `value` the double nearest to it.
-/
namespace Reckoner.Decimal

/-- The exponent of a literal, as it is written. -/
structure Exponent where
  /-- The letter `e` or `E`. -/
  mark : Char
  /-- One sign or none. -/
  sign : List Char
  digits : List Char
  deriving DecidableEq, Repr

/-- A literal, as it is written. -/
structure Literal where
  whole : List Char
  /-- The digits after the point; empty if there is no point. -/
  fraction : List Char
  exponent : Option Exponent
  deriving DecidableEq, Repr

def Exponent.text (x : Exponent) : List Char := x.mark :: x.sign ++ x.digits

def fractionText : List Char → List Char
  | [] => []
  | ds => '.' :: ds

def Literal.text (l : Literal) : List Char :=
  l.whole ++ fractionText l.fraction ++ (l.exponent.map Exponent.text).getD []

/-! ## Reading -/

/-- The digits after a point at the front of a text, and the rest. -/
def readFraction : List Char → List Char × List Char
  | '.' :: cs =>
    if (cs.takeWhile Char.isDigit).isEmpty then ([], '.' :: cs)
    else (cs.takeWhile Char.isDigit, cs.dropWhile Char.isDigit)
  | cs => ([], cs)

/-- One sign at the front of a text, if there is one, and the rest. -/
def readSign : List Char → List Char × List Char
  | '+' :: cs => (['+'], cs)
  | '-' :: cs => (['-'], cs)
  | cs => ([], cs)

/-- The exponent at the front of a text, if a complete one is there, and the rest. -/
def readExponent : List Char → Option Exponent × List Char
  | [] => (none, [])
  | c :: cs =>
    if c == 'e' || c == 'E' then
      let (sign, after) := readSign cs
      let digits := after.takeWhile Char.isDigit
      if digits.isEmpty then (none, c :: cs)
      else (some ⟨c, sign, digits⟩, after.dropWhile Char.isDigit)
    else (none, c :: cs)

/-- The longest literal that starts with the digit `d`, and the rest of the text. -/
def Literal.read (d : Char) (cs : List Char) : Literal × List Char :=
  let (fraction, afterFraction) := readFraction (cs.dropWhile Char.isDigit)
  let (exponent, rest) := readExponent afterFraction
  (⟨d :: cs.takeWhile Char.isDigit, fraction, exponent⟩, rest)

theorem readFraction_append (cs : List Char) :
    fractionText (readFraction cs).1 ++ (readFraction cs).2 = cs := by
  unfold readFraction
  split
  · split
    · rfl
    · rename_i cs h
      cases hd : cs.takeWhile Char.isDigit with
      | nil => simp [hd] at h
      | cons d ds =>
        rw [← hd, fractionText]
        · simp
        · simp [hd]
  · rfl

theorem readSign_append (cs : List Char) : (readSign cs).1 ++ (readSign cs).2 = cs := by
  unfold readSign
  split <;> rfl

theorem readExponent_append (cs : List Char) :
    ((readExponent cs).1.map Exponent.text).getD [] ++ (readExponent cs).2 = cs := by
  unfold readExponent
  split
  · rfl
  · rename_i c cs
    have := readSign_append cs
    split
    · simp only
      split
      · rfl
      · simp [Exponent.text, this]
    · rfl

theorem Literal.text_append_rest (d : Char) (cs : List Char) :
    (read d cs).1.text ++ (read d cs).2 = d :: cs := by
  have hf := readFraction_append (cs.dropWhile Char.isDigit)
  have he := readExponent_append (readFraction (cs.dropWhile Char.isDigit)).2
  simp only [read, text, List.append_assoc, he, hf]
  simp

/-! ## Value -/

def natOfDigits (ds : List Char) : Nat := ds.foldl (fun n d => 10 * n + (d.toNat - '0'.toNat)) 0

def Exponent.value (x : Exponent) : Int :=
  if x.sign == ['-'] then -(natOfDigits x.digits : Int) else natOfDigits x.digits

/-- All digits of a literal as one number. -/
def Literal.significand (l : Literal) : Nat := natOfDigits (l.whole ++ l.fraction)

/-- The power of ten by which the significand is scaled. -/
def Literal.power (l : Literal) : Int :=
  (l.exponent.map Exponent.value).getD 0 - l.fraction.length

def Literal.exact (l : Literal) : Rat := l.significand * (10 : Rat) ^ l.power

/-- The double nearest to the number a literal denotes; an infinity if that is out of range. -/
def Literal.value (l : Literal) : Float :=
  .ofScientific l.significand (l.power < 0) l.power.natAbs

example : (Literal.read '1' ".5e-3x".toList).1.significand = 15 ∧
    (Literal.read '1' ".5e-3x".toList).1.power = -4 ∧
    (Literal.read '1' ".e+".toList).2 = ".e+".toList := by decide

end Reckoner.Decimal
