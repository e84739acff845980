/-
# `Reckoner.Proofs.Calculator.Rounding` — rounding does no harm to a conversion

A calculator rounds what it converts.  That never makes a number of what is none, nor the
other way round, it keeps the order of any two numbers, and it never shows a negative zero
(`rounding_keeps_order`).  None of this depends on the number of places.
-/
import Reckoner.Calculator
import Reckoner.Proofs.Binary64.Places
import Reckoner.Proofs.Outcome

namespace Reckoner

open Binary64

/-- **Rounding does no harm.**  With any number of places, a finite number is rounded to a finite
one, and not to negative zero; what is not finite is not changed; and of two numbers, infinities
included, the smaller one is not rounded to the larger result.  So a calculator converts to a
finite number exactly where the conversion itself is one. -/
theorem rounding_keeps_order (c : Calculator) :
    (∀ x : Float, x.isFinite = true →
      (c.settings.round x).isFinite = true ∧ c.settings.round x ≠ -0.0) ∧
    (∀ x : Float, x.isFinite = false → c.settings.round x = x) ∧
    (∀ x y : Float, x ≤ y → c.settings.round x ≤ c.settings.round y) ∧
    ∀ (x : Float) (source target : String),
      (∃ y, c.convert x source target = .ok y ∧ y.isFinite = true) ↔
        ∃ y, Measure.convertNamed x source target = .ok y ∧ y.isFinite = true := by
  refine ⟨fun x hx => ?_, fun x hx => roundPlaces_of_not_finite _ hx,
    fun x y h => roundPlaces_mono _ h, fun x source target => ?_⟩
  · obtain ⟨hfinite, -, hsign⟩ := roundPlaces_spec c.settings.precision hx
    have hzero : parts (-0.0) = .zero .negative := by with_unfolding_all rfl
    exact ⟨hfinite, fun h => hsign ((congrArg parts h).trans hzero)⟩
  · simp only [Calculator.convert, map_eq_ok_iff]
    constructor
    · rintro ⟨_, ⟨y, hy, rfl⟩, hfinite⟩
      exact ⟨y, hy, (isFinite_roundPlaces _ y).symm.trans hfinite⟩
    · rintro ⟨y, hy, hfinite⟩
      exact ⟨_, ⟨y, hy, rfl⟩, (isFinite_roundPlaces _ y).trans hfinite⟩

/-- With the most places two neighbours differ: the smaller can be scaled, the larger cannot. -/
theorem rounding_keeps_order_boundary :
    let c : Calculator := { settings := { precision := 40 } }
    let x : Float := 1.7976931348623157e293
    let y : Float := 1.797693134862316e293
    x.isFinite = true ∧ x ≤ y ∧ (x * scale 40).isFinite = true ∧ (y * scale 40).isFinite = false ∧
      c.settings.round x ≠ -0.0 ∧ c.settings.round x ≤ c.settings.round y := by
  intro c x y
  have hx : x.isFinite = true := by decide +kernel
  have hxy : x ≤ y := by decide +kernel
  exact ⟨hx, hxy, by decide +kernel, by decide +kernel, ((rounding_keeps_order c).1 x hx).2,
    (rounding_keeps_order c).2.2.1 x y hxy⟩

end Reckoner
