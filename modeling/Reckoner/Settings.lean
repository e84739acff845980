/-
# `Reckoner.Settings` — limits on expressions, and the precision of conversions

An expression is refused unread when it has too many characters or nests too
deeply.  The depth is that of `nestingDepth`, which looks at characters only: it
estimates the nesting of the tree, and may fall short of it.
-/
import Reckoner.Binary64.Rounding
import Reckoner.Report
import Reckoner.Settings.Nesting

namespace Reckoner

/-- What a calculator can be told. -/
structure Settings where
  /-- The most characters an expression may have. -/
  maxLength : Nat := 10000
  /-- The deepest nesting an expression may have. -/
  maxDepth : Nat := 100
  /-- The decimal places to which conversions are rounded. -/
  precision : Nat := 5
  deriving DecidableEq, Repr

/-- Why an expression is refused unread. -/
inductive LimitFault where
  | tooLong (length limit : Nat)
  | tooDeep (depth limit : Nat)
  deriving DecidableEq, Repr

def LimitFault.report : LimitFault → Report
  | .tooLong length limit =>
    { kind := .malformed
      message := s!"Expression too long: {length} characters (limit {limit})" }
  | .tooDeep depth limit =>
    { kind := .malformed
      message := s!"Expression nested too deeply: depth {depth} (limit {limit})" }

/-- Checks the limits, the length before the depth. -/
def Settings.check (s : Settings) (text : String) : Except LimitFault Unit :=
  if s.maxLength < text.length then .error (.tooLong text.length s.maxLength)
  else if s.maxDepth < nestingDepth text then .error (.tooDeep (nestingDepth text) s.maxDepth)
  else .ok ()

def Settings.round (s : Settings) (x : Float) : Float := Binary64.roundPlaces s.precision x

end Reckoner
