/-
# `Reckoner.Proofs.Number.Finite` — operations that keep numbers finite

No sum, product or quotient is finite by itself.  What keeps results finite are the
checks behind the operations: those of an operator and of an entry.  A sign has no
check, and needs none: negation changes one bit of a double and leaves its exponent
alone, which is what tells an infinity and not-a-number from the rest.
-/
import Mathlib
import Reckoner.Operator.Arithmetic
import Reckoner.Proofs.Outcome
import Reckoner.Routine.Registry

namespace Reckoner

/-! ## Negation -/

section Float

open Float.Model (Format UnpackedFloat)
open Float.Model.UnpackedFloat

theorem isFinite_unpack {spec : Format} (b : BitVec spec.numBits) :
    (unpack spec b).isFinite = true ↔ unpackExponent b ≠ -1#_ := by
  by_cases h : unpackExponent b = -1#_
  · simp only [unpack, h, if_true]
    split <;> simp [UnpackedFloat.isFinite]
  · simp only [unpack, h, if_false]
    split
    · split <;> simp [UnpackedFloat.isFinite, h]
    · simp [UnpackedFloat.isFinite, h]

theorem unpackExponent_pack_neg {spec : Format} (u : UnpackedFloat) :
    unpackExponent (pack spec u.neg) = unpackExponent (pack spec u) := by
  cases u with
  | notANumber => rfl
  | infinity s => simp [neg, pack, packedInfinity]
  | zero s => simp [neg, pack, packedZero]
  | finite s m e hm =>
      simp only [neg, pack]
      split
      · simp [packedInfinity]
      · split <;> simp

theorem isFinite_neg (x : Float) : (-x).isFinite = x.isFinite := by
  have hpack : pack .binary64 x.toModel.unpack = x.toModel.toBits.toBitVec :=
    pack_unpack_of_valid x.toModel.valid
  rw [Bool.eq_iff_iff]
  show (unpack .binary64 (pack .binary64 x.toModel.unpack.neg)).isFinite = true ↔
    (unpack .binary64 x.toModel.toBits.toBitVec).isFinite = true
  rw [isFinite_unpack, isFinite_unpack, unpackExponent_pack_neg, hpack]

theorem isNaN_eq_false_of_isFinite {x : Float} (hx : x.isFinite = true) : x.isNaN = false := by
  have hx : x.toModel.unpack.isFinite = true := hx
  show x.toModel.unpack.isNaN = false
  cases hu : x.toModel.unpack with
  | notANumber => exact absurd hx (by rw [hu]; decide)
  | infinity s | zero s | finite s m e hm => rfl

end Float

/-! ## Signs, operators, entries -/

theorem Number.isFinite_neg_of_isFinite {x : Number} (hx : x.isFinite = true) :
    (-x).isFinite = true := by
  cases x with
  | negativeNaN => exact absurd hx (by decide)
  | ofFloat x =>
      have hx : x.isFinite = true := hx
      show (Number.neg (.ofFloat x)).isFinite = true
      rw [Number.neg, isNaN_eq_false_of_isFinite hx]
      exact (isFinite_neg x).trans hx

theorem Sign.isFinite_apply (s : Sign) {x : Number} (hx : x.isFinite = true) :
    (s.apply x).isFinite = true := by
  cases s with
  | minus => exact Number.isFinite_neg_of_isFinite hx
  | plus => exact hx

theorem Operator.isFinite_of_apply {o : Operator} {x y v : Number} (hx : x.isFinite = true)
    (hy : y.isFinite = true) (h : o.apply x y = .ok v) : v.isFinite = true := by
  obtain ⟨w, _, h⟩ := bind_eq_ok_iff.mp h
  rw [hx, hy, Bool.and_true, Bool.and_true] at h
  split at h
  · exact nomatch h
  · rename_i hfinite
    obtain rfl := Except.ok.inj h
    simpa using hfinite

theorem Entry.isFinite_of_call {e : Entry} {xs : List Number} {v : Number}
    (hxs : ∀ x ∈ xs, x.isFinite = true) (h : e.call xs = .ok v) : v.isFinite = true := by
  unfold Entry.call at h
  split at h
  · split at h
    · rename_i w hw
      rw [List.all_eq_true.mpr hxs, Bool.and_true] at h
      split at h
      · exact nomatch h
      · rename_i hfinite
        obtain rfl := Except.ok.inj h
        simpa using hfinite
    · exact nomatch h
  · exact nomatch h

end Reckoner
