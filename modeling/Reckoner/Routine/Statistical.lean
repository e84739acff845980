/-
# `Reckoner.Routine.Statistical` — averages and spreads of a list

* `average` is the sum from left to right over the count.
* `middle` is the middle value of the sorted list, or half the sum of the two
  middle ones; sorting is by the total order of numbers, so it depends on
  nothing but the values.
* `mostFrequent` counts values that compare equal, and the first one seen wins
  a tie.
* `sampleVariance` is the sum of the squared distances from the average over
  the count less one.

Except for the variance, an empty list gives zero.
-/
import Reckoner.Routine.Basic

namespace Reckoner.Routine

/-- The sum from left to right.  It starts at negative zero, which changes no summand. -/
def total (xs : List Number) : Number := xs.foldl (· + ·) (-0.0)

/-- The arithmetic mean. -/
def average (xs : List Number) : Number :=
  if xs.isEmpty then 0.0 else total xs / .ofNat xs.length

/-- The list in the total order of numbers. -/
def sorted (xs : List Number) : List Number :=
  xs.mergeSort fun x y => x.orderKey ≤ y.orderKey

/-- The median. -/
def middle (xs : List Number) : Number :=
  let ys := sorted xs
  let half := ys.length / 2
  if ys.length % 2 = 0 then
    match ys.drop (half - 1) with
    | x :: y :: _ => (x + y) / 2.0
    | _ => 0.0
  else ys.getD half 0.0

/-! ## The mode -/

/-- Counts one more value. -/
def tally (counts : List (Number × Nat)) (x : Number) : List (Number × Nat) :=
  match counts with
  | [] => [(x, 1)]
  | (y, n) :: rest =>
    if y.toFloat == x.toFloat then (y, n + 1) :: rest else (y, n) :: tally rest x

/-- The value with the larger count, the earlier one on a tie. -/
def leader (best : Option (Number × Nat)) (next : Number × Nat) : Option (Number × Nat) :=
  match best with
  | some b => if b.2 < next.2 then some next else some b
  | none => some next

/-- The mode. -/
def mostFrequent (xs : List Number) : Number :=
  (((xs.foldl tally []).foldl leader none).map Prod.fst).getD 0.0

/-! ## The variance -/

def squaredDistance (m x : Number) : Number := (x - m) * (x - m)

/-- The sample variance, which needs two values. -/
def sampleVariance (xs : List Number) : Except Violation Number :=
  if xs.length < 2 then .error (.tooFewValues xs.length)
  else .ok (total (xs.map (squaredDistance (average xs))) / .ofNat (xs.length - 1))

def mean : Routine := ⟨"mean", .many fun xs => .ok (average xs)⟩

def median : Routine := ⟨"median", .many fun xs => .ok (middle xs)⟩

def mode : Routine := ⟨"mode", .many fun xs => .ok (mostFrequent xs)⟩

def variance : Routine := ⟨"variance", .many sampleVariance⟩

def stdev : Routine := ⟨"stdev", .many fun xs => (sampleVariance xs).map (.map Float.sqrt)⟩

end Reckoner.Routine
