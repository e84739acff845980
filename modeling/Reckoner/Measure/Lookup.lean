/-
# `Reckoner.Measure.Lookup` — units by name

A unit is found under any of its names, in any letter case, with a space or a
hyphen in the place of any underscore, and with blanks around it.  `key` brings a
name to the form in which the table has it.
-/
import Reckoner.Measure.Table
import Reckoner.Report
import Reckoner.Text.Blank
import Reckoner.Text.LowerCase

namespace Reckoner

/-- Why a name stands for no unit. -/
inductive LookupFault where
  /-- The name holds blanks only. -/
  | emptyName
  /-- No unit has the name, which is given without the blanks around it. -/
  | unknown (name : String)
  deriving DecidableEq, Repr

def LookupFault.report : LookupFault → Report
  | .emptyName => { kind := .unit, message := "Unit name must not be empty" }
  | .unknown name =>
    { kind := .unit, message := "Unknown unit: " ++ name, notes := [("unit", name)] }

namespace Measure

/-- Spaces and hyphens separate words as underscores do. -/
def underscore (c : Char) : Char := if c == ' ' || c == '-' then '_' else c

/-- A name without the blanks around it, in lower case, with underscores between words. -/
def key (name : String) : String :=
  String.ofList ((Text.lower (Text.trimBlanks name.toList)).map underscore)

def lookup (name : String) : Except LookupFault Measure :=
  let k := key name
  if k.isEmpty then .error .emptyName
  else
    match table.find? (·.names.contains k) with
    | some m => .ok m
    | none => .error (.unknown (Text.trim name))

/-- Every name of every unit is its own key. -/
example : (table.flatMap names).all (fun n => key n == n) = true := by decide +kernel

end Measure

end Reckoner
