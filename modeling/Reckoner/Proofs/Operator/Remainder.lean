/-
# `Reckoner.Proofs.Operator.Remainder` — the remainder is correctly rounded

The exact remainder of the floored division is rounded once, so the operator gives the
double nearest to it, ties to even (`modulo_correctly_rounded`).

Rounding makes no zero of a remainder that is none: doubles are multiples of the least
double, so their remainders are, and the least double survives rounding.  A remainder is
therefore zero only for a multiple of the divisor.  There the truncated remainder is a zero
with the sign of the dividend, which the addition of zero takes away.

The truncated remainder itself is exact, because it has no more digits than a double holds
(`toRat_truncatedRemainder`).
-/
import Reckoner.Proofs.Binary64.TiesToEven
import Reckoner.Proofs.Operator.Modulo

namespace Reckoner

namespace Binary64

/-! ## Multiples of the least double -/

theorem exists_toRat_eq_multiple {x : Float} (hx : x.isFinite = true) :
    ∃ n : Int, toRat x = n * 2 ^ (-1074 : Int) := by
  obtain ⟨n, k, hk, -, hvalue⟩ := representable_toRat hx
  obtain ⟨d, rfl⟩ := Int.le.dest hk
  refine ⟨n * 2 ^ d, ?_⟩
  rw [hvalue, zpow_add₀ two_ne_zero, zpow_natCast, Int.cast_mul, Int.cast_pow, Int.cast_ofNat,
    mul_assoc, mul_comm (2 ^ d)]

/-- Multiples of a unit that no bit stands below are not rounded to zero, but zero itself. -/
theorem rounded_multiple_eq_zero_iff {k : Int} (hk : -1074 ≤ k) (n : Int) :
    rounded (n * 2 ^ k) = 0 ↔ (n : Rat) * 2 ^ k = 0 := by
  constructor
  · intro h
    by_contra hne
    have hunit : (0 : Rat) < 2 ^ k := zpow_pos two_pos _
    have hn : (1 : Rat) ≤ |(n : Rat)| := by
      have hn' : n ≠ 0 := by
        rintro rfl
        exact hne (by rw [Int.cast_zero, zero_mul])
      exact_mod_cast Int.one_le_abs hn'
    have hle : (2 : Rat) ^ k ≤ |(n : Rat) * 2 ^ k| := by
      rw [abs_mul, abs_of_pos hunit]
      exact le_mul_of_one_le_left hunit.le hn
    have hround := rounded_mono hle
    rw [rounded_of_representable (representable_two_pow hk), ← abs_rounded, h, abs_zero] at hround
    exact absurd hunit (not_lt.mpr hround)
  · intro h
    rw [h, rounded_zero]

/-! ## Exact remainders -/

theorem flooredMod_eq_zero_iff {a b : Rat} (hb : b ≠ 0) :
    flooredMod a b = 0 ↔ ∃ k : Int, a = b * k := by
  rw [flooredMod_eq_fract hb, mul_eq_zero, or_iff_right hb, Int.fract_eq_zero_iff]
  constructor
  · rintro ⟨k, hk⟩
    exact ⟨k, by rw [hk, mul_div_cancel₀ a hb]⟩
  · rintro ⟨k, rfl⟩
    exact ⟨k, (mul_div_cancel_left₀ _ hb).symm⟩

theorem rounded_flooredMod_eq_zero_iff {a b : Float} (ha : a.isFinite = true)
    (hb : b.isFinite = true) :
    rounded (flooredMod (toRat a) (toRat b)) = 0 ↔ flooredMod (toRat a) (toRat b) = 0 := by
  obtain ⟨m, hm⟩ := exists_toRat_eq_multiple ha
  obtain ⟨n, hn⟩ := exists_toRat_eq_multiple hb
  have hmultiple : flooredMod (toRat a) (toRat b) =
      ((m - n * ⌊toRat a / toRat b⌋ : Int) : Rat) * 2 ^ (-1074 : Int) := by
    rw [flooredMod]
    generalize ⌊toRat a / toRat b⌋ = k
    rw [hm, hn, Int.cast_sub, Int.cast_mul, sub_mul, mul_right_comm]
  rw [hmultiple]
  exact rounded_multiple_eq_zero_iff le_rfl _

/-! ## Zero remainders -/

theorem add_zero_of_parts {x : Float} {s : Float.Model.UnpackedFloat.Sign}
    (hx : parts x = .zero s) : x + 0.0 = 0.0 := by
  have hzero : parts 0.0 = .zero .positive := by with_unfolding_all rfl
  rw [add_eq, hx, hzero]
  cases s <;> with_unfolding_all rfl

theorem flooredRemainder_eq_zero {a b : Float} (ha : a.isFinite = true) (hb : b.isFinite = true)
    (hne : toRat b ≠ 0) (h : flooredMod (toRat a) (toRat b) = 0) : flooredRemainder a b = 0.0 := by
  obtain ⟨hfinite, hlt, ⟨k, hk⟩, -⟩ := truncatedRemainder_spec ha hb hne
  rw [flooredMod_eq_of_abs_lt hk hlt] at h
  rw [flooredRemainder_eq ha hb hne]
  split_ifs at h ⊢ with hmoved
  · -- a remainder that is smaller than the divisor is not moved to zero
    have hopposite : toRat (truncatedRemainder a b) = -toRat b := eq_neg_of_add_eq_zero_left h
    rw [hopposite, abs_neg] at hlt
    exact absurd hlt (lt_irrefl _)
  · obtain ⟨s, hp⟩ := exists_zero_of_toRat hfinite h
    exact add_zero_of_parts hp

/-! ## The truncated remainder -/

/-- The integer next to a rational in the direction of zero. -/
def truncated (q : Rat) : Int := if 0 ≤ q then ⌊q⌋ else ⌈q⌉

/-- A remainder that is smaller than the divisor and does not have the other sign than the dividend
belongs to the truncated quotient. -/
theorem truncated_div_eq {a b r : Rat} {k : Int} (h : a = b * k + r) (hlt : |r| < |b|)
    (hpos : 0 ≤ a → 0 ≤ r) (hneg : a ≤ 0 → r ≤ 0) : truncated (a / b) = k := by
  have hb : b ≠ 0 := abs_pos.mp ((abs_nonneg r).trans_lt hlt)
  have hquotient : a / b = k + r / b := by rw [h, add_div, mul_div_cancel_left₀ _ hb]
  have hsmall : |r / b| < 1 := by rwa [abs_div, div_lt_one (abs_pos.mpr hb)]
  obtain ⟨hlow, hhigh⟩ := abs_lt.mp hsmall
  rw [truncated]
  split_ifs with hq
  · have hfraction : 0 ≤ r / b := by
      rcases div_nonneg_iff.mp hq with ⟨ha, hb⟩ | ⟨ha, hb⟩
      · exact div_nonneg (hpos ha) hb
      · exact div_nonneg_of_nonpos (hneg ha) hb
    rw [Int.floor_eq_iff]
    constructor <;> linarith
  · have hfraction : r / b ≤ 0 := by
      rcases div_nonpos_iff.mp (not_le.mp hq).le with ⟨ha, hb⟩ | ⟨ha, hb⟩
      · exact div_nonpos_of_nonneg_of_nonpos (hpos ha) hb
      · exact div_nonpos_of_nonpos_of_nonneg (hneg ha) hb
    rw [Int.ceil_eq_iff]
    constructor <;> linarith

theorem toRat_truncatedRemainder {a b : Float} (ha : a.isFinite = true) (hb : b.isFinite = true)
    (hne : toRat b ≠ 0) : toRat (truncatedRemainder a b) =
      toRat a - toRat b * truncated (toRat a / toRat b) := by
  obtain ⟨-, hlt, ⟨k, hk⟩, hpos, hneg⟩ := truncatedRemainder_spec ha hb hne
  rw [truncated_div_eq hk hlt hpos hneg]
  linarith

end Binary64

open Binary64

/-- **The remainder is the floored one, correctly rounded.**  For a finite dividend and a finite
divisor other than zero there is a finite remainder, and its value is that of the double nearest to
the exact remainder, ties to even, which is the only one.  It is zero exactly for the multiples of
the divisor, and then without a sign; any other remainder has the sign of the divisor.  (The
remainder of the truncated division, from which it is made, is exact.) -/
theorem modulo_correctly_rounded {a b : Number} (ha : a.isFinite = true) (hb : b.isFinite = true)
    (hne : b.exact ≠ 0) :
    ∃ r, Operator.modulo.apply a b = .ok r ∧ r.isFinite = true ∧
      (∀ z : Float, NearestEven z (a.exact - b.exact * ⌊a.exact / b.exact⌋) ↔
        z.isFinite = true ∧ toRat z = r.exact) ∧
      (r.exact = 0 ↔ ∃ k : Int, a.exact = b.exact * k) ∧
      (r.exact = 0 → r = 0.0) ∧
      (r.exact ≠ 0 → (0 < r.exact ↔ 0 < b.exact)) ∧
      toRat (truncatedRemainder a.toFloat b.toFloat) =
        a.exact - b.exact * truncated (a.exact / b.exact) := by
  have hfinite := isFinite_flooredRemainder ha hb hne
  obtain ⟨r, hr⟩ : ∃ r, r = Number.ofFloat (flooredRemainder a.toFloat b.toFloat) := ⟨_, rfl⟩
  have hvalue : r.exact = rounded (flooredMod a.exact b.exact) := by
    rw [hr]
    exact (nearest_flooredRemainder ha hb hne).toRat_eq hfinite
  have hrange : |flooredMod a.exact b.exact| < overflowBound :=
    (abs_flooredMod_lt hne).trans ((nearest_self hb).isFinite_iff.mp hb)
  have hzero : r.exact = 0 ↔ flooredMod a.exact b.exact = 0 := by
    rw [hvalue]
    exact rounded_flooredMod_eq_zero_iff ha hb
  refine ⟨r, by rw [hr]; exact Operator.apply_modulo ha hb hne, by rw [hr]; exact hfinite,
    fun z => ?_, hzero.trans (flooredMod_eq_zero_iff hne), fun h => ?_, fun h => ?_,
    toRat_truncatedRemainder ha hb hne⟩
  · rw [hvalue]
    exact nearestEven_iff hrange
  · rw [hr, flooredRemainder_eq_zero ha hb hne (hzero.mp h)]
    rfl
  · rcases lt_or_gt_of_ne hne with hneg | hpos
    · have hle : r.exact ≤ 0 := by
        rw [hvalue, ← rounded_zero]
        exact rounded_mono (flooredMod_nonpos hneg)
      exact iff_of_false hle.not_gt hneg.not_gt
    · have hle : 0 ≤ r.exact := by
        rw [hvalue]
        exact rounded_nonneg (flooredMod_nonneg hpos)
      exact iff_of_true (lt_of_le_of_ne hle (Ne.symm h)) hpos

/-- A tenth is moved below zero by a divisor with a minus, and the sum is rounded. -/
theorem modulo_correctly_rounded_negative_divisor :
    Number.isFinite 0.1 = true ∧ Number.isFinite (-0.3) = true ∧ Number.exact (-0.3) ≠ 0 ∧
      Operator.modulo.apply 0.1 (-0.3) = .ok (.ofFloat (-0.19999999999999998)) ∧
      NearestEven (-0.19999999999999998)
        (Number.exact 0.1 - Number.exact (-0.3) * ⌊Number.exact 0.1 / Number.exact (-0.3)⌋) := by
  have ha : Number.isFinite 0.1 = true := by with_unfolding_all rfl
  have hb : Number.isFinite (-0.3) = true := by with_unfolding_all rfl
  have hne : Number.exact (-0.3) ≠ 0 := by decide +kernel
  have happly : Operator.modulo.apply 0.1 (-0.3) = .ok (.ofFloat (-0.19999999999999998)) := by
    with_unfolding_all rfl
  obtain ⟨r, hr, hfinite, hnearest, -⟩ := modulo_correctly_rounded ha hb hne
  obtain rfl := Except.ok.inj (happly.symm.trans hr)
  exact ⟨ha, hb, hne, happly, (hnearest _).mpr ⟨hfinite, rfl⟩⟩

end Reckoner
