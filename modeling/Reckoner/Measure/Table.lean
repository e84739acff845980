/-
# `Reckoner.Measure.Table` — the units of measure

Every unit has a canonical name and further names: plurals, spellings and
abbreviations.  All names are in lower case with underscores between words, and
no two units share one.
-/
import Reckoner.Measure.Scale

namespace Reckoner

/-- A unit of measure. -/
structure Measure where
  name : String
  dimension : Dimension
  scale : Scale
  aliases : List String
  deriving DecidableEq, Repr

namespace Measure

/-- Every name of a unit, the canonical one first. -/
def names (m : Measure) : List String := m.name :: m.aliases

/-- A unit with a factor to the base unit. -/
def linear (d : Dimension) (name : String) (f : Factor) (aliases : List String) : Measure :=
  ⟨name, d, .linear f, aliases⟩

def temperature (name : String) (t : Temperature) (aliases : List String) : Measure :=
  ⟨name, .temperature, .temperature t, aliases⟩

/-! ## Defining constants -/

/-- The pound in kilograms. -/
def pound : Factor := 0.45359237

/-- The gallon in liters. -/
def gallon : Factor := 3.78541

/-- The quart in liters. -/
def quart : Factor := gallon / 4.0

/-- The calorie in joules. -/
def calorie : Factor := 4.184

/-! ## Units by dimension -/

/-- Distances, in meters. -/
def distances : List Measure :=
  [linear .distance "meter" 1.0 ["m", "meters", "metre", "metres"],
   linear .distance "kilometer" 1000.0 ["km", "kilometers", "kilometre", "kilometres"],
   linear .distance "mile" 1609.344 ["mi", "miles"],
   linear .distance "foot" 0.3048 ["ft", "feet"],
   linear .distance "inch" 0.0254 ["in", "inches"],
   linear .distance "yard" 0.9144 ["yd", "yards"],
   linear .distance "centimeter" 0.01 ["cm", "centimeters", "centimetre", "centimetres"]]

/-- Masses, in kilograms. -/
def masses : List Measure :=
  [linear .mass "kilogram" 1.0 ["kg", "kgs", "kilograms"],
   linear .mass "pound" pound ["lb", "lbs", "pounds"],
   linear .mass "ounce" (pound / 16.0) ["oz", "ounces"],
   linear .mass "ton" 1000.0 ["t", "tons", "tonne", "tonnes"],
   linear .mass "gram" 0.001 ["g", "grams"]]

def temperatures : List Measure :=
  [temperature "celsius" .celsius ["c", "degc"],
   temperature "fahrenheit" .fahrenheit ["f", "degf"],
   temperature "kelvin" .kelvin ["k"]]

/-- Volumes, in liters. -/
def volumes : List Measure :=
  [linear .volume "liter" 1.0 ["l", "liters", "litre", "litres"],
   linear .volume "milliliter" 0.001 ["ml", "milliliters", "millilitre", "millilitres"],
   linear .volume "gallon" gallon ["gal", "gallons"],
   linear .volume "quart" quart ["qt", "quarts"],
   linear .volume "pint" (quart / 2.0) ["pt", "pints"]]

/-- Times, in seconds. -/
def times : List Measure :=
  [linear .time "second" 1.0 ["s", "sec", "secs", "seconds"],
   linear .time "minute" 60.0 ["min", "mins", "minutes"],
   linear .time "hour" 3600.0 ["h", "hr", "hrs", "hours"],
   linear .time "day" 86400.0 ["d", "days"]]

/-- Velocities, in meters per second. -/
def velocities : List Measure :=
  [linear .velocity "meter_per_second" 1.0
     ["m/s", "mps", "meters_per_second", "metre_per_second"],
   linear .velocity "kilometer_per_hour" (1.0 / 3.6)
     ["km/h", "kph", "kmh", "kilometers_per_hour", "kilometre_per_hour"],
   linear .velocity "mile_per_hour" 0.44704 ["mph", "mi/h", "miles_per_hour"],
   linear .velocity "foot_per_second" 0.3048 ["ft/s", "fps", "feet_per_second"],
   linear .velocity "knot" (1852.0 / 3600.0) ["kn", "kt", "knots"]]

/-- Forces, in newtons. -/
def forces : List Measure :=
  [linear .force "newton" 1.0 ["n", "newtons"],
   linear .force "kilonewton" 1000.0 ["kilonewtons", "knewton"],
   linear .force "pound_force" (pound * 9.80665) ["lbf", "pounds_force", "pound_of_force"],
   linear .force "dyne" 1e-5 ["dyn", "dynes"]]

/-- Pressures, in pascals. -/
def pressures : List Measure :=
  [linear .pressure "pascal" 1.0 ["pa", "pascals"],
   linear .pressure "kilopascal" 1000.0 ["kpa", "kilopascals"],
   linear .pressure "bar" 100000.0 ["bars"],
   linear .pressure "atmosphere" 101325.0 ["atm", "atmospheres"],
   linear .pressure "psi" (pound * 9.80665 / (0.0254 * 0.0254))
     ["lbf/in2", "pounds_per_square_inch"],
   linear .pressure "mmhg" 133.322387415
     ["mm_hg", "millimeter_of_mercury", "millimetre_of_mercury"]]

/-- Energies, in joules. -/
def energies : List Measure :=
  [linear .energy "joule" 1.0 ["j", "joules"],
   linear .energy "kilojoule" 1000.0 ["kj", "kilojoules"],
   linear .energy "calorie" calorie ["cal", "calories"],
   linear .energy "kilocalorie" (calorie * 1000.0) ["kcal", "kilocalories"],
   linear .energy "kilowatt_hour" 3.6e6 ["kwh", "kw_h", "kilowatt_hours"],
   linear .energy "btu" 1055.05585262 ["btus", "british_thermal_unit"]]

/-- Powers, in watts. -/
def powers : List Measure :=
  [linear .power "watt" 1.0 ["w", "watts"],
   linear .power "kilowatt" 1000.0 ["kw", "kilowatts"],
   linear .power "horsepower" 745.69987158227 ["hp"]]

/-- Magnetic fluxes, in webers. -/
def fluxes : List Measure :=
  [linear .magneticFlux "weber" 1.0 ["wb", "webers"],
   linear .magneticFlux "maxwell" 1e-8 ["mx", "maxwells"]]

def table : List Measure :=
  distances ++ masses ++ temperatures ++ volumes ++ times ++ velocities ++ forces ++
    pressures ++ energies ++ powers ++ fluxes

theorem nodup_names : (table.flatMap names).Nodup := by decide +kernel

/-- Fifty units have one hundred and seventy-seven names. -/
example : table.length = 50 ∧ (table.flatMap names).length = 177 := by decide +kernel

end Measure

end Reckoner
