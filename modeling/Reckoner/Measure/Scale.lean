/-
# `Reckoner.Measure.Scale` — dimensions and scales of units

A unit belongs to a *dimension*, the quantity it measures; only units of one
dimension convert into each other.  Its *scale* places it within the dimension.
Most scales are a factor to the base unit of the dimension.  The three
temperatures are not: their zeros differ, and they meet in degrees Celsius.

Factors are kept as they are defined, as decimals with products and quotients of
them, and the formulas are written for any numbers with the four operations.
Over doubles they are what a calculator computes, over rational numbers what it
ought to compute.
-/
namespace Reckoner

/-- The quantity that a unit measures. -/
inductive Dimension where
  | distance
  | mass
  | temperature
  | volume
  | time
  | velocity
  | force
  | pressure
  | energy
  | power
  | magneticFlux
  deriving DecidableEq, Repr

def Dimension.text : Dimension → String
  | .distance => "distance"
  | .mass => "mass"
  | .temperature => "temperature"
  | .volume => "volume"
  | .time => "time"
  | .velocity => "velocity"
  | .force => "force"
  | .pressure => "pressure"
  | .energy => "energy"
  | .power => "power"
  | .magneticFlux => "magnetic flux"

/-- The heading under which units of a dimension are listed.  Four dimensions have one of their
own. -/
def Dimension.category : Dimension → String
  | .distance => "distance"
  | .mass => "mass"
  | .temperature => "temperature"
  | .volume => "volume"
  | .time | .velocity | .force | .pressure | .energy | .power | .magneticFlux => "derived"

/-! ## Factors -/

/-- A positive number, as it is defined. -/
inductive Factor where
  /-- `digits` with a point before the last `places` of them. -/
  | decimal (digits places : Nat)
  | times (a b : Factor)
  | over (a b : Factor)
  deriving DecidableEq, Repr

instance : OfScientific Factor where
  ofScientific m negative e := if negative then .decimal m e else .decimal (m * Nat.pow 10 e) 0

instance (n : Nat) : OfNat Factor n := ⟨.decimal n 0⟩

instance : Mul Factor := ⟨.times⟩

instance : Div Factor := ⟨.over⟩

section Arithmetic

variable {α : Type} [Add α] [Sub α] [Mul α] [Div α] [OfScientific α]

def Factor.value : Factor → α
  | .decimal digits places => OfScientific.ofScientific digits true places
  | .times a b => a.value * b.value
  | .over a b => a.value / b.value

/-! ## Temperatures -/

inductive Temperature where
  | celsius
  | fahrenheit
  | kelvin
  deriving DecidableEq, Repr

def Temperature.text : Temperature → String
  | .celsius => "Celsius"
  | .fahrenheit => "Fahrenheit"
  | .kelvin => "Kelvin"

def Temperature.toCelsius (x : α) : Temperature → α
  | .celsius => x
  | .fahrenheit => (x - 32.0) * 5.0 / 9.0
  | .kelvin => x - 273.15

def Temperature.ofCelsius (x : α) : Temperature → α
  | .celsius => x
  | .fahrenheit => x * 9.0 / 5.0 + 32.0
  | .kelvin => x + 273.15

/-! ## Scales -/

/-- The place of a unit within its dimension. -/
inductive Scale where
  /-- So many of the base unit. -/
  | linear (factor : Factor)
  | temperature (t : Temperature)
  deriving DecidableEq, Repr

/-- A number on one scale, moved to another.  Two scales of different kinds have no conversion. -/
def Scale.convert? (x : α) : Scale → Scale → Option α
  | .linear a, .linear b => some (x * a.value / b.value)
  | .temperature s, .temperature t => some (t.ofCelsius (s.toCelsius x))
  | _, _ => none

end Arithmetic

end Reckoner
