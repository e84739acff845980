/-
# `Reckoner.Measure.Convert` — numbers from one unit to another

A number converts between two units of one dimension.  It has to be finite, and
that is checked before the names are; of two bad names the first is reported.
-/
import Reckoner.Decimal.Text
import Reckoner.Measure.Lookup

namespace Reckoner

/-- Why a conversion gives no number. -/
inductive ConversionFault where
  | notFinite (x : Float)
  | lookup (fault : LookupFault)
  /-- The units measure different quantities. -/
  | incompatible (source target : Measure)
  deriving DecidableEq

def ConversionFault.report : ConversionFault → Report
  | .notFinite x =>
    { kind := .evaluation
      message := "Value to convert must be a finite number"
      notes := [("value", Decimal.text x)] }
  | .lookup fault => fault.report
  | .incompatible source target =>
    { kind := .dimensionality
      message := "Cannot convert from " ++ source.name ++ " to " ++ target.name
        ++ ": incompatible dimensions (" ++ source.dimension.text ++ " vs "
        ++ target.dimension.text ++ ")"
      notes := [("from_unit", source.name), ("to_unit", target.name)] }

namespace Measure

/-- A number of one unit as a number of another. -/
def convert (x : Float) (source target : Measure) : Except ConversionFault Float :=
  if source.dimension = target.dimension then
    match Scale.convert? x source.scale target.scale with
    | some y => .ok y
    | none => .error (.incompatible source target)
  else .error (.incompatible source target)

/-- A number converted between two units given by name. -/
def convertNamed (x : Float) (source target : String) : Except ConversionFault Float := do
  if !x.isFinite then .error (.notFinite x)
  else
    let a ← (lookup source).mapError .lookup
    let b ← (lookup target).mapError .lookup
    convert x a b

/-- Two units given by name measure one quantity. -/
def compatibleNamed (source target : String) : Except LookupFault Bool := do
  let a ← lookup source
  let b ← lookup target
  return a.dimension = b.dimension

/-- What one of a unit is of another.  Between temperatures this is no factor. -/
def factorNamed (source target : String) : Except ConversionFault Float :=
  convertNamed 1.0 source target

/-- The headings of the listing, in alphabetical order. -/
def categories : List String := ["derived", "distance", "mass", "temperature", "volume"]

/-- The canonical names under every heading, in the order of the table. -/
def byCategory : List (String × List String) :=
  categories.map fun c =>
    (c, (table.filter fun m => m.dimension.category == c).map (·.name))

end Measure

end Reckoner
