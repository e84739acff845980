/-
# `Reckoner.Proofs.Measure.Exact` — conversions without rounding

Over rational numbers the formulas of a conversion say what it ought to compute.  Every
scale has its *place* on a line that all units of its dimension share, base units for a
factor and degrees Celsius for a temperature, and back from the line there is one reading.
A conversion goes to the line and back (`convert?_eq_moved`), so conversions compose
because the two ways undo each other.

How the factors of the table are read as rational numbers does not matter as long as they
are positive: `Factor.value` reads them as they are defined, `Factor.double` as they are
stored.
-/
import Reckoner.Proofs.Measure.Overflow

namespace Reckoner

/-! ## Temperatures -/

namespace Temperature

theorem toCelsius_fahrenheit (x : Rat) : fahrenheit.toCelsius x = (x - 32) * 5 / 9 := by
  norm_num [toCelsius]

theorem ofCelsius_fahrenheit (x : Rat) : fahrenheit.ofCelsius x = x * 9 / 5 + 32 := by
  norm_num [ofCelsius]

variable (t : Temperature)

theorem ofCelsius_toCelsius (x : Rat) : t.ofCelsius (t.toCelsius x) = x := by
  cases t with
  | celsius => rfl
  | fahrenheit =>
      rw [ofCelsius_fahrenheit, toCelsius_fahrenheit]
      ring
  | kelvin => exact sub_add_cancel x _

theorem toCelsius_ofCelsius (x : Rat) : t.toCelsius (t.ofCelsius x) = x := by
  cases t with
  | celsius => rfl
  | fahrenheit =>
      rw [ofCelsius_fahrenheit, toCelsius_fahrenheit]
      ring
  | kelvin => exact add_sub_cancel_right x _

theorem toCelsius_strictMono : StrictMono fun x : Rat => t.toCelsius x := by
  intro x y h
  cases t with
  | celsius => exact h
  | fahrenheit =>
      show fahrenheit.toCelsius x < fahrenheit.toCelsius y
      rw [toCelsius_fahrenheit, toCelsius_fahrenheit]
      linarith
  | kelvin => exact sub_lt_sub_right h _

theorem ofCelsius_strictMono : StrictMono fun x : Rat => t.ofCelsius x := by
  intro x y h
  cases t with
  | celsius => exact h
  | fahrenheit =>
      show fahrenheit.ofCelsius x < fahrenheit.ofCelsius y
      rw [ofCelsius_fahrenheit, ofCelsius_fahrenheit]
      linarith
  | kelvin => exact add_lt_add_left h _

end Temperature

/-! ## Places on a line -/

namespace Scale

section Places

variable (value : Factor → Rat)

/-- The place of a number on a scale, in base units or in degrees Celsius. -/
def place (x : Rat) : Scale → Rat
  | .linear f => x * value f
  | .temperature t => t.toCelsius x

/-- The number on a scale at a place. -/
def reading (y : Rat) : Scale → Rat
  | .linear f => y / value f
  | .temperature t => t.ofCelsius y

/-- A number on one scale, moved to another by way of its place. -/
def moved (x : Rat) (s t : Scale) : Rat := reading value (place value x s) t

def Positive : Scale → Prop
  | .linear f => 0 < value f
  | .temperature _ => True

instance (s : Scale) : Decidable (s.Positive value) :=
  match s with
  | .linear f => inferInstanceAs (Decidable (0 < value f))
  | .temperature _ => inferInstanceAs (Decidable True)

variable {value} {s t : Scale}

theorem reading_place (hs : s.Positive value) (x : Rat) :
    reading value (place value x s) s = x := by
  cases s with
  | linear f => exact mul_div_cancel_right₀ x (ne_of_gt hs)
  | temperature t => exact t.ofCelsius_toCelsius x

theorem place_reading (hs : s.Positive value) (y : Rat) :
    place value (reading value y s) s = y := by
  cases s with
  | linear f => exact div_mul_cancel₀ y (ne_of_gt hs)
  | temperature t => exact t.toCelsius_ofCelsius y

theorem place_strictMono (hs : s.Positive value) : StrictMono fun x => place value x s := by
  cases s with
  | linear f => exact fun _ _ h => mul_lt_mul_of_pos_right h hs
  | temperature t => exact t.toCelsius_strictMono

theorem reading_strictMono (hs : s.Positive value) : StrictMono fun y => reading value y s := by
  cases s with
  | linear f => exact fun _ _ h => div_lt_div_of_pos_right h hs
  | temperature t => exact t.ofCelsius_strictMono

theorem moved_self (hs : s.Positive value) (x : Rat) : moved value x s s = x :=
  reading_place hs x

theorem moved_moved (ht : t.Positive value) (x : Rat) (r : Scale) :
    moved value (moved value x s t) t r = moved value x s r := by
  rw [moved, moved, place_reading ht, moved]

theorem moved_strictMono (hs : s.Positive value) (ht : t.Positive value) :
    StrictMono fun x => moved value x s t :=
  (reading_strictMono ht).comp (place_strictMono hs)

theorem moved_linear (value : Factor → Rat) (x : Rat) (f g : Factor) :
    moved value x (.linear f) (.linear g) = x * moved value 1 (.linear f) (.linear g) := by
  simp only [moved, place, reading]
  ring

end Places

/-- The formula of a conversion goes by way of the place. -/
theorem convert?_eq_moved {s t : Scale} (h : s.isTemperature = t.isTemperature) (x : Rat) :
    Scale.convert? x s t = some (moved Factor.value x s t) := by
  cases s with
  | linear f =>
      cases t with
      | linear g => rfl
      | temperature t => exact absurd h Bool.false_ne_true
  | temperature s =>
      cases t with
      | linear g => exact absurd h.symm Bool.false_ne_true
      | temperature t => rfl

theorem exactConvert_eq_moved {s t : Scale} (h : s.isTemperature = t.isTemperature) (x : Rat) :
    exactConvert x s t = moved Factor.double x s t := by
  cases s with
  | linear f =>
      cases t with
      | linear g => rfl
      | temperature t => exact absurd h Bool.false_ne_true
  | temperature s =>
      cases t with
      | linear g => exact absurd h.symm Bool.false_ne_true
      | temperature t => rfl

end Scale

/-! ## Units -/

namespace Measure

/-- A number of one unit as a number of another, over any numbers with the four operations. -/
def convertOver? {α : Type} [Add α] [Sub α] [Mul α] [Div α] [OfScientific α] (x : α)
    (m n : Measure) : Option α :=
  if m.dimension = n.dimension then Scale.convert? x m.scale n.scale else none

/-- Over doubles this is the conversion of the calculator. -/
theorem convert_eq_convertOver? (x : Float) (m n : Measure) :
    convert x m n = (convertOver? x m n).elim (.error (.incompatible m n)) .ok := by
  rw [convert, convertOver?]
  split_ifs
  · cases Scale.convert? x m.scale n.scale with
    | none => rfl
    | some y => rfl
  · rfl

theorem isTemperature_eq_of_dimension {m n : Measure} (hm : m ∈ table) (hn : n ∈ table)
    (h : m.dimension = n.dimension) : m.scale.isTemperature = n.scale.isTemperature := by
  rw [Bool.eq_iff_iff, isTemperature_scale_iff m hm, isTemperature_scale_iff n hn, h]

/-- The formula of a conversion over rational numbers: from the first scale to the line that the
units of the dimension share, and on to the second scale. -/
theorem convertOver?_eq_moved {m n : Measure} (hm : m ∈ table) (hn : n ∈ table)
    (h : m.dimension = n.dimension) (x : Rat) :
    convertOver? x m n = some (Scale.moved Factor.value x m.scale n.scale) := by
  rw [convertOver?, if_pos h, Scale.convert?_eq_moved (isTemperature_eq_of_dimension hm hn h)]

theorem positive_value_of_mem_table : ∀ m ∈ table, m.scale.Positive Factor.value := by
  decide +kernel

theorem positive_double_of_mem_table {m : Measure} (hm : m ∈ table) :
    m.scale.Positive Factor.double := by
  have h := sound_of_mem_table m hm
  cases hs : m.scale with
  | linear f =>
      rw [hs] at h
      exact (Factor.sound_iff.mp h).pos
  | temperature t => trivial

/-- What is expected of exact conversions between the units of one dimension. -/
structure Coherent (convert? : Rat → Measure → Measure → Option Rat) : Prop where
  /-- A unit converts to itself without a change. -/
  self : ∀ a ∈ table, ∀ x, convert? x a a = some x
  /-- There and back again. -/
  back : ∀ a ∈ table, ∀ b ∈ table, a.dimension = b.dimension → ∀ x,
    (convert? x a b).bind (convert? · b a) = some x
  /-- A unit on the way makes no difference. -/
  trans : ∀ a ∈ table, ∀ b ∈ table, ∀ c ∈ table,
    a.dimension = b.dimension → b.dimension = c.dimension → ∀ x,
      (convert? x a b).bind (convert? · b c) = convert? x a c
  /-- Between two factors, what one converts to is the factor from the one unit to the other. -/
  factor : ∀ a ∈ table, ∀ b ∈ table, a.dimension = b.dimension →
    a.scale.isTemperature = false → b.scale.isTemperature = false → ∀ x,
      convert? x a b = (convert? 1 a b).map (x * ·)
  /-- A larger number converts to a larger one. -/
  increasing : ∀ a ∈ table, ∀ b ∈ table, a.dimension = b.dimension → ∀ x y, x < y →
    ∃ x' y', convert? x a b = some x' ∧ convert? y a b = some y' ∧ x' < y'

/-- Conversions by way of the place are coherent, whichever positive values the factors have. -/
theorem coherent_of_moved {convert? : Rat → Measure → Measure → Option Rat} {value : Factor → Rat}
    (hpos : ∀ m ∈ table, m.scale.Positive value)
    (hmoved : ∀ m ∈ table, ∀ n ∈ table, m.dimension = n.dimension → ∀ x,
      convert? x m n = some (Scale.moved value x m.scale n.scale)) : Coherent convert? where
  self a ha x := by rw [hmoved a ha a ha rfl, Scale.moved_self (hpos a ha)]
  back a ha b hb h x := by
    rw [hmoved a ha b hb h, Option.bind_some, hmoved b hb a ha h.symm,
      Scale.moved_moved (hpos b hb), Scale.moved_self (hpos a ha)]
  trans a ha b hb c hc hab hbc x := by
    rw [hmoved a ha b hb hab, Option.bind_some, hmoved b hb c hc hbc,
      Scale.moved_moved (hpos b hb), hmoved a ha c hc (hab.trans hbc)]
  factor a ha b hb h hsa hsb x := by
    rw [hmoved a ha b hb h, hmoved a ha b hb h, Option.map_some]
    cases hf : a.scale with
    | temperature t =>
        rw [hf] at hsa
        exact absurd hsa.symm Bool.false_ne_true
    | linear f =>
        cases hg : b.scale with
        | temperature t =>
            rw [hg] at hsb
            exact absurd hsb.symm Bool.false_ne_true
        | linear g => exact congrArg some (Scale.moved_linear value x f g)
  increasing a ha b hb h x y hxy :=
    ⟨_, _, hmoved a ha b hb h x, hmoved a ha b hb h y,
      Scale.moved_strictMono (hpos a ha) (hpos b hb) hxy⟩

/-- **Exact conversions are coherent.**  A conversion of the calculator is a formula over doubles.
The same formula over rational numbers, between any units of one dimension, changes nothing from a
unit to itself, leads back, and composes; between two factors it multiplies by what one converts
to, and it is strictly increasing.  All that holds of the factors as they are defined and of the
doubles that are stored for them. -/
theorem exact_conversions_coherent :
    (∀ (x : Float) (m n : Measure),
      convert x m n = (convertOver? x m n).elim (.error (.incompatible m n)) .ok) ∧
    Coherent convertOver? ∧
    Coherent fun x m n => some (Scale.exactConvert x m.scale n.scale) := by
  refine ⟨convert_eq_convertOver?, ?_, ?_⟩
  · exact coherent_of_moved positive_value_of_mem_table fun m hm n hn h =>
      convertOver?_eq_moved hm hn h
  · refine coherent_of_moved (fun m hm => positive_double_of_mem_table hm) fun m hm n hn h x => ?_
    rw [Scale.exactConvert_eq_moved (isTemperature_eq_of_dimension hm hn h)]

/-- From Celsius to Fahrenheit by way of kelvin or directly, and back again; from kilometers to
miles. -/
theorem exact_conversions_coherent_temperatures :
    ∃ c k f km mile, lookup "c" = .ok c ∧ lookup "k" = .ok k ∧ lookup "f" = .ok f ∧
      lookup "km" = .ok km ∧ lookup "mile" = .ok mile ∧
      (∀ x : Rat, (convertOver? x c k).bind (convertOver? · k f) = convertOver? x c f ∧
        (convertOver? x c f).bind (convertOver? · f c) = some x) ∧
      convertOver? (100 : Rat) c f = some 212 ∧
      (∀ x : Rat, convertOver? x km mile = (convertOver? 1 km mile).map (x * ·)) ∧
      convertOver? (1.609344 : Rat) km mile = some 1 := by
  have hc : lookup "c" = .ok (temperature "celsius" .celsius ["c", "degc"]) := by
    with_unfolding_all rfl
  have hk : lookup "k" = .ok (temperature "kelvin" .kelvin ["k"]) := by with_unfolding_all rfl
  have hf : lookup "f" = .ok (temperature "fahrenheit" .fahrenheit ["f", "degf"]) := by
    with_unfolding_all rfl
  have hkm : lookup "km" = .ok (linear .distance "kilometer" 1000.0
      ["km", "kilometers", "kilometre", "kilometres"]) := by
    with_unfolding_all rfl
  have hmile : lookup "mile" = .ok (linear .distance "mile" 1609.344 ["mi", "miles"]) := by
    with_unfolding_all rfl
  have hcelsius := mem_table_of_lookup hc
  have hfahrenheit := mem_table_of_lookup hf
  obtain ⟨-, hcoherent, -⟩ := exact_conversions_coherent
  refine ⟨_, _, _, _, _, hc, hk, hf, hkm, hmile, fun x => ⟨?_, ?_⟩, by decide +kernel, fun x => ?_,
    by decide +kernel⟩
  · exact hcoherent.trans _ hcelsius _ (mem_table_of_lookup hk) _ hfahrenheit rfl rfl x
  · exact hcoherent.back _ hcelsius _ hfahrenheit rfl x
  · exact hcoherent.factor _ (mem_table_of_lookup hkm) _ (mem_table_of_lookup hmile) rfl rfl rfl x

end Measure

end Reckoner
