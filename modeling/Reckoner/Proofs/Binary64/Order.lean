/-
# `Reckoner.Proofs.Binary64.Order` — doubles compare as their values

Finite doubles are compared by sign, exponent and significand.  Since these are
canonical, that is the order of the exact values (`lt_iff`, `le_iff`, `beq_iff`), and
the two zeros, whose values agree, compare equal.
-/
import Reckoner.Proofs.Binary64.Canonical

namespace Reckoner.Binary64

open Float.Model (UnpackedFloat)
open Float.Model.UnpackedFloat

/-! ## Values -/

theorem finite_cases {x : Float} (hx : x.isFinite = true) :
    (∃ s, parts x = .zero s) ∨ ∃ s m e hm, parts x = .finite s m e hm := by
  have hx : (parts x).isFinite = true := hx
  cases h : parts x with
  | zero s => exact Or.inl ⟨s, rfl⟩
  | finite s m e hm => exact Or.inr ⟨s, m, e, hm, rfl⟩
  | infinity s | notANumber =>
      rw [h] at hx
      exact nomatch hx

theorem toRat_of_zero {x : Float} {s : UnpackedFloat.Sign} (hx : parts x = .zero s) :
    toRat x = 0 := by
  rw [toRat, hx]

theorem toRat_of_finite {x : Float} {s : UnpackedFloat.Sign} {m : Nat} {e : Int} {hm : 0 < m}
    (hx : parts x = .finite s m e hm) : toRat x = (s.apply m : Int) * (2 : Rat) ^ e := by
  rw [toRat, hx]

theorem toRat_of_positive {x : Float} {m : Nat} {e : Int} {hm : 0 < m}
    (hx : parts x = .finite .positive m e hm) : toRat x = m * 2 ^ e := by
  rw [toRat_of_finite hx, UnpackedFloat.Sign.apply, Int.cast_natCast]

theorem toRat_of_negative {x : Float} {m : Nat} {e : Int} {hm : 0 < m}
    (hx : parts x = .finite .negative m e hm) : toRat x = -(m * 2 ^ e) := by
  rw [toRat_of_finite hx, UnpackedFloat.Sign.apply, Int.cast_neg, Int.cast_natCast, neg_mul]

theorem magnitude_pos {m : Nat} (hm : 0 < m) (e : Int) : 0 < (m : Rat) * 2 ^ e := by positivity

/-! ## Magnitudes -/

theorem Canonical.lt_of_exponent_lt {m n : Nat} {e f : Int} (hm : Canonical m e)
    (hn : Canonical n f) (h : e < f) : (m : Rat) * 2 ^ e < n * 2 ^ f := by
  have hlarge : 2 ^ 52 ≤ n := hn.full.resolve_right (by have := hm.least; omega)
  have hm' : (m : Rat) < 2 ^ 53 := by exact_mod_cast hm.lt
  have hn' : (2 : Rat) ^ 52 ≤ n := by exact_mod_cast hlarge
  calc (m : Rat) * 2 ^ e < 2 ^ 53 * 2 ^ e := by gcongr
    _ = 2 ^ 52 * 2 ^ (e + 1) := by rw [zpow_add₀ (by norm_num)]; ring
    _ ≤ n * 2 ^ f := by gcongr <;> norm_num; omega

/-- Exponents are compared first, significands only where they agree. -/
theorem Canonical.compare_eq {m n : Nat} {e f : Int} (hm : Canonical m e) (hn : Canonical n f) :
    (compare e f).then (compare m n) = compare ((m : Rat) * 2 ^ e) (n * 2 ^ f) := by
  rcases lt_trichotomy e f with h | rfl | h
  · rw [compare_lt_iff_lt.mpr h, compare_lt_iff_lt.mpr (hm.lt_of_exponent_lt hn h)]
    rfl
  · have hpos : (0 : Rat) < 2 ^ e := by positivity
    have hcast : StrictMono fun k : Nat => (k : Rat) := Nat.strictMono_cast
    rw [compare_eq_iff_eq.mpr (rfl : e = e), ← cmp_eq_compare (_ * _), cmp_mul_pos_right hpos,
      hcast.cmp_map_eq, cmp_eq_compare]
    rfl
  · rw [compare_gt_iff_gt.mpr h, compare_gt_iff_gt.mpr (hn.lt_of_exponent_lt hm h)]
    rfl

theorem compare_neg_neg (a b : Rat) : compare (-a) (-b) = (compare a b).swap := by
  have hanti : StrictAnti fun q : Rat => -q := fun _ _ h => neg_lt_neg h
  rw [← cmp_eq_compare, ← cmp_eq_compare, cmp_swap]
  exact hanti.cmp_map_eq a b

/-- Finite doubles compare as their values. -/
theorem compare_parts {x y : Float} (hx : x.isFinite = true) (hy : y.isFinite = true) :
    UnpackedFloat.compare (parts x) (parts y) = some (compare (toRat x) (toRat y)) := by
  rcases finite_cases hx with ⟨s, hpx⟩ | ⟨s, m, e, hm, hpx⟩ <;>
    rcases finite_cases hy with ⟨r, hpy⟩ | ⟨r, n, f, hn, hpy⟩
  · rw [toRat_of_zero hpx, toRat_of_zero hpy, hpx, hpy, compare_eq_iff_eq.mpr rfl]
    rfl
  · have hpos := magnitude_pos hn f
    cases r with
    | positive =>
        rw [toRat_of_zero hpx, toRat_of_positive hpy, hpx, hpy, compare_lt_iff_lt.mpr hpos]
        rfl
    | negative =>
        rw [toRat_of_zero hpx, toRat_of_negative hpy, hpx, hpy,
          compare_gt_iff_gt.mpr (neg_neg_of_pos hpos)]
        rfl
  · have hpos := magnitude_pos hm e
    cases s with
    | positive =>
        rw [toRat_of_positive hpx, toRat_of_zero hpy, hpx, hpy, compare_gt_iff_gt.mpr hpos]
        rfl
    | negative =>
        rw [toRat_of_negative hpx, toRat_of_zero hpy, hpx, hpy,
          compare_lt_iff_lt.mpr (neg_neg_of_pos hpos)]
        rfl
  · have hposx := magnitude_pos hm e
    have hposy := magnitude_pos hn f
    have hcompare := (canonical_of_parts hpx).compare_eq (canonical_of_parts hpy)
    cases s with
    | positive =>
        cases r with
        | positive =>
            rw [toRat_of_positive hpx, toRat_of_positive hpy, hpx, hpy, ← hcompare]
            rfl
        | negative =>
            rw [toRat_of_positive hpx, toRat_of_negative hpy, hpx, hpy,
              compare_gt_iff_gt.mpr (by linarith)]
            rfl
    | negative =>
        cases r with
        | positive =>
            rw [toRat_of_negative hpx, toRat_of_positive hpy, hpx, hpy,
              compare_lt_iff_lt.mpr (by linarith)]
            rfl
        | negative =>
            rw [toRat_of_negative hpx, toRat_of_negative hpy, hpx, hpy, compare_neg_neg,
              ← hcompare]
            rfl

theorem lt_iff {x y : Float} (hx : x.isFinite = true) (hy : y.isFinite = true) :
    x < y ↔ toRat x < toRat y := by
  show decide ((UnpackedFloat.compare (parts x) (parts y) == some .lt) = true) = true ↔ _
  rw [decide_eq_true_iff, compare_parts hx hy, beq_iff_eq, Option.some.injEq, compare_lt_iff_lt]

theorem le_iff {x y : Float} (hx : x.isFinite = true) (hy : y.isFinite = true) :
    x ≤ y ↔ toRat x ≤ toRat y := by
  show decide ((UnpackedFloat.compare (parts x) (parts y)).any (·.isLE) = true) = true ↔ _
  rw [decide_eq_true_iff, compare_parts hx hy, Option.any_some, Ordering.isLE_iff_ne_gt]
  exact compare_le_iff_le

theorem beq_iff {x y : Float} (hx : x.isFinite = true) (hy : y.isFinite = true) :
    (x == y) = true ↔ toRat x = toRat y := by
  show (UnpackedFloat.compare (parts x) (parts y) == some .eq) = true ↔ _
  rw [compare_parts hx hy, beq_iff_eq, Option.some.injEq, compare_eq_iff_eq]

/-! ## Infinities

An infinity has no value to compare.  Everything but not-a-number lies between the two. -/

theorem isLE_compare_iff_of_left {u v : UnpackedFloat} (hu : u.isFinite = false) :
    (UnpackedFloat.compare u v).any (·.isLE) = true ↔
      u = .infinity .negative ∧ v.isNaN = false ∨
        u = .infinity .positive ∧ v = .infinity .positive := by
  cases u with
  | notANumber => simp [UnpackedFloat.compare]
  | infinity s =>
      rcases v with (_ | _) | _ | _ | _ <;> cases s <;>
        simp [UnpackedFloat.compare, UnpackedFloat.isNaN, compare]
  | zero s | finite s m e hm => exact Bool.noConfusion hu

theorem isLE_compare_iff_of_right {u v : UnpackedFloat} (hv : v.isFinite = false) :
    (UnpackedFloat.compare u v).any (·.isLE) = true ↔
      v = .infinity .positive ∧ u.isNaN = false ∨
        v = .infinity .negative ∧ u = .infinity .negative := by
  cases v with
  | notANumber => cases u <;> simp [UnpackedFloat.compare]
  | infinity s =>
      rcases u with (_ | _) | _ | (_ | _) | _ <;> cases s <;>
        simp [UnpackedFloat.compare, UnpackedFloat.isNaN, compare]
  | zero s | finite s m e hm => exact Bool.noConfusion hv

section Infinities

variable {x y : Float}

theorem le_iff_parts :
    x ≤ y ↔ (UnpackedFloat.compare (parts x) (parts y)).any (·.isLE) = true := by
  show decide _ = true ↔ _
  rw [decide_eq_true_iff]
  rfl

theorem le_iff_of_left (hx : x.isFinite = false) :
    x ≤ y ↔ parts x = .infinity .negative ∧ y.isNaN = false ∨
      parts x = .infinity .positive ∧ parts y = .infinity .positive :=
  le_iff_parts.trans (isLE_compare_iff_of_left hx)

theorem le_iff_of_right (hy : y.isFinite = false) :
    x ≤ y ↔ parts y = .infinity .positive ∧ x.isNaN = false ∨
      parts y = .infinity .negative ∧ parts x = .infinity .negative :=
  le_iff_parts.trans (isLE_compare_iff_of_right hy)

end Infinities

/-! ## Constants -/

theorem isFinite_zero : Float.isFinite 0.0 = true := by with_unfolding_all rfl

theorem isFinite_one : Float.isFinite 1.0 = true := by with_unfolding_all rfl

theorem isFinite_neg_one : Float.isFinite (-1.0) = true := by with_unfolding_all rfl

theorem toRat_zero : toRat 0.0 = 0 := by with_unfolding_all rfl

theorem toRat_one : toRat 1.0 = 1 := by with_unfolding_all rfl

theorem toRat_neg_one : toRat (-1.0) = -1 := by with_unfolding_all rfl

section Constants

variable {x : Float} (hx : x.isFinite = true)

include hx

theorem zero_lt_iff : 0.0 < x ↔ 0 < toRat x := by rw [lt_iff isFinite_zero hx, toRat_zero]

theorem zero_le_iff : 0.0 ≤ x ↔ 0 ≤ toRat x := by rw [le_iff isFinite_zero hx, toRat_zero]

theorem lt_zero_iff : x < 0.0 ↔ toRat x < 0 := by rw [lt_iff hx isFinite_zero, toRat_zero]

theorem le_zero_iff : x ≤ 0.0 ↔ toRat x ≤ 0 := by rw [le_iff hx isFinite_zero, toRat_zero]

theorem beq_zero_iff : (x == 0.0) = true ↔ toRat x = 0 := by
  rw [beq_iff hx isFinite_zero, toRat_zero]

theorem beq_one_iff : (x == 1.0) = true ↔ toRat x = 1 := by
  rw [beq_iff hx isFinite_one, toRat_one]

end Constants

/-! ## Equality

Doubles that are not finite have no value to compare.  Equality of any two is that of their
parts, but for the sign of a zero, and not-a-number equals nothing. -/

def forgetZeroSign : UnpackedFloat → UnpackedFloat
  | .zero _ => .zero .positive
  | u => u

theorem compare_eq_some_eq_iff (u v : UnpackedFloat) :
    UnpackedFloat.compare u v = some .eq ↔
      u.isNaN = false ∧ forgetZeroSign u = forgetZeroSign v := by
  cases u with
  | notANumber => simp [UnpackedFloat.compare, UnpackedFloat.isNaN]
  | infinity s =>
      rcases v with (_ | _) | _ | _ | _ <;> cases s <;>
        simp [UnpackedFloat.compare, UnpackedFloat.isNaN, forgetZeroSign, compare]
  | zero s =>
      rcases v with (_ | _) | _ | _ | (_ | _) <;>
        simp [UnpackedFloat.compare, UnpackedFloat.isNaN, forgetZeroSign]
  | finite s m e hm =>
      rcases v with (_ | _) | _ | _ | (_ | _) <;> cases s <;>
        simp [UnpackedFloat.compare, UnpackedFloat.isNaN, forgetZeroSign, and_comm]

theorem isNaN_forgetZeroSign (u : UnpackedFloat) : (forgetZeroSign u).isNaN = u.isNaN := by
  cases u <;> rfl

/-- Two doubles compare equal if they are the same but for the sign of a zero. -/
theorem beq_iff_parts {x y : Float} : (x == y) = true ↔
    x.isNaN = false ∧ forgetZeroSign (parts x) = forgetZeroSign (parts y) := by
  show (UnpackedFloat.compare (parts x) (parts y) == some .eq) = true ↔ _
  rw [beq_iff_eq, compare_eq_some_eq_iff]
  rfl

end Reckoner.Binary64
