/-
# `Reckoner.Proofs.Operator.Modulo` — remainders and their range

The remainder that has the sign of the dividend needs no rounding
(`truncatedRemainder_spec`).  One rounded addition moves it to the sign of the divisor,
so the whole is the double nearest to the exact remainder of the floored division
(`nearest_flooredRemainder`).

The exact remainder lies strictly below the divisor.  The nearest double need not: from
the middle of the gap below the divisor on, it is the divisor itself.
-/
import Reckoner.Operator.Arithmetic
import Reckoner.Proofs.Binary64.Gap
import Reckoner.Proofs.Routine.Domain

namespace Reckoner

namespace Binary64

open Float.Model (UnpackedFloat)
open Float.Model.UnpackedFloat

/-! ## Floored division -/

/-- The remainder of a division that is rounded down. -/
def flooredMod (a b : Rat) : Rat := a - b * ⌊a / b⌋

theorem flooredMod_eq_fract {a b : Rat} (hb : b ≠ 0) :
    flooredMod a b = b * Int.fract (a / b) := by
  rw [flooredMod, Int.fract, mul_sub, mul_div_cancel₀ a hb]

theorem abs_flooredMod_lt {a b : Rat} (hb : b ≠ 0) : |flooredMod a b| < |b| := by
  rw [flooredMod_eq_fract hb, abs_mul, abs_of_nonneg (Int.fract_nonneg (a / b))]
  exact mul_lt_of_lt_one_right (abs_pos.mpr hb) (Int.fract_lt_one _)

theorem flooredMod_nonneg {a b : Rat} (hb : 0 < b) : 0 ≤ flooredMod a b := by
  rw [flooredMod_eq_fract hb.ne']
  exact mul_nonneg hb.le (Int.fract_nonneg _)

theorem flooredMod_nonpos {a b : Rat} (hb : b < 0) : flooredMod a b ≤ 0 := by
  rw [flooredMod_eq_fract hb.ne]
  exact mul_nonpos_of_nonpos_of_nonneg hb.le (Int.fract_nonneg _)

theorem flooredMod_eq {a b r : Rat} {k : Int} (h : a = b * k + r)
    (hr : 0 ≤ r ∧ r < b ∨ b < r ∧ r ≤ 0) : flooredMod a b = r := by
  have hb : b ≠ 0 := by rcases hr with hr | hr <;> intro hb <;> linarith
  have hquotient : a / b = k + r / b := by rw [h, add_div, mul_div_cancel_left₀ _ hb]
  have hfloor : ⌊a / b⌋ = k := by
    rw [Int.floor_eq_iff, hquotient]
    rcases hr with ⟨hlow, hhigh⟩ | ⟨hlow, hhigh⟩
    · have hpos : 0 < b := hlow.trans_lt hhigh
      exact ⟨le_add_of_nonneg_right (div_nonneg hlow hpos.le),
        add_lt_add_right ((div_lt_one hpos).mpr hhigh) _⟩
    · have hneg : b < 0 := hlow.trans_le hhigh
      exact ⟨le_add_of_nonneg_right (div_nonneg_of_nonpos hhigh hneg.le),
        add_lt_add_right ((div_lt_one_of_neg hneg).mpr hlow) _⟩
  rw [flooredMod, hfloor, h, add_sub_cancel_left]

theorem flooredMod_eq_of_abs_lt {a b r : Rat} {k : Int} (h : a = b * k + r) (hlt : |r| < |b|) :
    flooredMod a b = if r ≠ 0 ∧ ¬(r < 0 ↔ b < 0) then r + b else r := by
  have hb : b ≠ 0 := abs_pos.mp ((abs_nonneg r).trans_lt hlt)
  split_ifs with hmove
  · obtain ⟨hzero, hsign⟩ := hmove
    apply flooredMod_eq (k := k - 1)
    · rw [h]
      push_cast
      ring
    · rcases lt_or_gt_of_ne hb with hneg | hpos
      · have hr : 0 < r := by
          by_contra hr
          exact hsign (iff_of_true (lt_of_le_of_ne (not_lt.mp hr) hzero) hneg)
        rw [abs_of_pos hr, abs_of_neg hneg] at hlt
        exact Or.inr ⟨by linarith, by linarith⟩
      · have hr : r < 0 := by
          by_contra hr
          exact hsign (iff_of_false hr hpos.not_gt)
        rw [abs_of_neg hr, abs_of_pos hpos] at hlt
        exact Or.inl ⟨by linarith, by linarith⟩
  · apply flooredMod_eq h
    rcases eq_or_ne r 0 with rfl | hzero
    · exact (lt_or_gt_of_ne hb).symm.imp (fun hpos => ⟨le_rfl, hpos⟩) fun hneg => ⟨hneg, le_rfl⟩
    · have hsign : r < 0 ↔ b < 0 := by
        by_contra hsign
        exact hmove ⟨hzero, hsign⟩
      rcases lt_or_gt_of_ne hzero with hneg | hpos
      · have hb' : b < 0 := hsign.mp hneg
        rw [abs_of_neg hneg, abs_of_neg hb'] at hlt
        exact Or.inr ⟨by linarith, hneg.le⟩
      · have hb' : 0 < b := lt_of_le_of_ne (not_lt.mp (mt hsign.mpr hpos.not_gt)) hb.symm
        rw [abs_of_pos hpos, abs_of_pos hb'] at hlt
        exact Or.inl ⟨hpos.le, hlt⟩

/-! ## The two remainders -/

section Remainders

variable {a b : Float} (ha : a.isFinite = true) (hb : b.isFinite = true) (hne : toRat b ≠ 0)

include ha hb hne

/-- Brought to one exponent, the operands are integers, and so is the remainder of a dividend other
than zero: it has the sign of the dividend, and no digit is lost. -/
theorem exists_truncatedRemainder (hdividend : toRat a ≠ 0) :
    ∃ (s t : UnpackedFloat.Sign) (M N : Nat) (unit : Rat), 0 < M ∧ 0 < N ∧ 0 < unit ∧
      toRat a = factor s * (M * unit) ∧ toRat b = factor t * (N * unit) ∧
      (truncatedRemainder a b).isFinite = true ∧
      toRat (truncatedRemainder a b) = factor s * ((M % N : Nat) * unit) := by
  rcases finite_cases hb with ⟨t, hpb⟩ | ⟨t, n, f, hn, hpb⟩
  · exact absurd (toRat_of_zero hpb) hne
  rcases finite_cases ha with ⟨s, hpa⟩ | ⟨s, m, e, hm, hpa⟩
  · exact absurd (toRat_of_zero hpa) hdividend
  obtain ⟨-, hmlt, hmleast, hmmost, -⟩ := canonical_of_parts hpa
  obtain ⟨-, hnlt, hnleast, hnmost, -⟩ := canonical_of_parts hpb
  obtain ⟨M, hM⟩ : ∃ M, M = m <<< (e - min e f).toNat := ⟨_, rfl⟩
  obtain ⟨N, hN⟩ : ∃ N, N = n <<< (f - min e f).toNat := ⟨_, rfl⟩
  have hMpos : 0 < M := by
    rw [hM, Nat.shiftLeft_eq]
    positivity
  have hNpos : 0 < N := by
    rw [hN, Nat.shiftLeft_eq]
    positivity
  -- one of the two integers is a significand, and bounds the remainder
  have hbits : M % N < 2 ^ 53 := by
    rcases le_total e f with he | he
    · have hM' : M = m := by
        rw [hM, min_eq_left he, sub_self]
        rfl
      rw [hM']
      exact (Nat.mod_le _ _).trans_lt hmlt
    · have hN' : N = n := by
        rw [hN, min_eq_right he, sub_self]
        rfl
      rw [hN']
      exact (Nat.mod_lt _ hn).trans hnlt
  have hr : truncatedRemainder a b = ofParts s (M % N) (min e f) := by
    simp only [truncatedRemainder, hpa, hpb, ← hM, ← hN]
  obtain ⟨hfinite, hvalue⟩ := ofParts_exact s hbits (le_min hmleast hnleast)
    ((min_le_left e f).trans hmmost)
  refine ⟨s, t, M, N, 2 ^ min e f, hMpos, hNpos, zpow_pos two_pos _, ?_, ?_, by rw [hr, hfinite],
    by rw [hr, hvalue, cast_apply, mul_assoc]⟩
  · rw [toRat_of_parts hpa, ← apply_shiftLeft s m (min_le_left e f), ← hM, cast_apply, mul_assoc]
  · rw [toRat_of_parts hpb, ← apply_shiftLeft t n (min_le_right e f), ← hN, cast_apply, mul_assoc]

theorem truncatedRemainder_spec :
    (truncatedRemainder a b).isFinite = true ∧ |toRat (truncatedRemainder a b)| < |toRat b| ∧
      (∃ k : Int, toRat a = toRat b * k + toRat (truncatedRemainder a b)) ∧
      (0 ≤ toRat a → 0 ≤ toRat (truncatedRemainder a b)) ∧
      (toRat a ≤ 0 → toRat (truncatedRemainder a b) ≤ 0) := by
  by_cases hdividend : toRat a = 0
  · have hr : truncatedRemainder a b = a := by
      obtain ⟨s, hpa⟩ := exists_zero_of_toRat ha hdividend
      rcases finite_cases hb with ⟨t, hpb⟩ | ⟨t, n, f, hn, hpb⟩
      · exact absurd (toRat_of_zero hpb) hne
      · rw [truncatedRemainder, hpa, hpb]
    rw [hr, hdividend, abs_zero]
    exact ⟨ha, abs_pos.mpr hne, ⟨0, by rw [Int.cast_zero, mul_zero, add_zero]⟩, id, id⟩
  obtain ⟨s, t, M, N, unit, hM, hN, hunit, ha', hb', hfinite, hr⟩ :=
    exists_truncatedRemainder ha hb hne hdividend
  refine ⟨hfinite, ?_, ⟨(s / t).apply (M / N : Nat), ?_⟩, ?_⟩
  · have hlt : ((M % N : Nat) : Rat) < N := by exact_mod_cast Nat.mod_lt M hN
    simp only [hr, hb', abs_mul, abs_factor, one_mul, Nat.abs_cast]
    gcongr
  · have hfactor : factor t ≠ 0 := abs_pos.mp (by rw [abs_factor]; exact one_pos)
    have hdivision : (M : Rat) = N * (M / N : Nat) + (M % N : Nat) := by
      exact_mod_cast (Nat.div_add_mod M N).symm
    rw [ha', hb', hr, cast_apply, factor_div, hdivision]
    field_simp
  · have hdividend : (0 : Rat) < M * unit := by positivity
    have hremainder : (0 : Rat) ≤ (M % N : Nat) * unit := by positivity
    rw [ha', hr]
    cases s with
    | positive =>
        simp only [factor, one_mul]
        exact ⟨fun _ => hremainder, fun h => absurd hdividend h.not_gt⟩
    | negative =>
        simp only [factor, neg_one_mul]
        exact ⟨fun h => absurd hdividend (neg_nonneg.mp h).not_gt,
          fun _ => neg_nonpos.mpr hremainder⟩

theorem flooredRemainder_eq : flooredRemainder a b =
    if toRat (truncatedRemainder a b) ≠ 0 ∧ ¬(toRat (truncatedRemainder a b) < 0 ↔ toRat b < 0)
    then truncatedRemainder a b + b else truncatedRemainder a b + 0.0 := by
  obtain ⟨hfinite, -⟩ := truncatedRemainder_spec ha hb hne
  obtain ⟨r, hr⟩ : ∃ r, r = truncatedRemainder a b := ⟨_, rfl⟩
  rw [← hr] at hfinite
  have hmoved : (r != 0.0 && decide (r < 0.0) != decide (b < 0.0)) = true ↔
      toRat r ≠ 0 ∧ ¬(toRat r < 0 ↔ toRat b < 0) := by
    rw [Bool.and_eq_true, bne, Bool.not_eq_true', ← Bool.not_eq_true, beq_zero_iff hfinite,
      bne_iff_ne, ne_eq (decide _), decide_eq_decide, lt_zero_iff hfinite, lt_zero_iff hb]
  rw [flooredRemainder, ← hr]
  simp only [hmoved]

theorem nearest_flooredRemainder :
    Nearest (flooredRemainder a b) (flooredMod (toRat a) (toRat b)) := by
  obtain ⟨hfinite, hlt, ⟨k, hk⟩, -⟩ := truncatedRemainder_spec ha hb hne
  rw [flooredMod_eq_of_abs_lt hk hlt, flooredRemainder_eq ha hb hne]
  split_ifs
  · exact nearest_add hfinite hb
  · have hnearest := nearest_add hfinite isFinite_zero
    rwa [toRat_zero, add_zero] at hnearest

theorem isFinite_flooredRemainder : (flooredRemainder a b).isFinite = true :=
  (nearest_flooredRemainder ha hb hne).isFinite_iff.mpr
    ((abs_flooredMod_lt hne).trans ((nearest_self hb).isFinite_iff.mp hb))

end Remainders

end Binary64

/-! ## The operator -/

section Modulo

open Binary64

theorem Operator.apply_modulo {a b : Number} (ha : a.isFinite = true) (hb : b.isFinite = true)
    (hne : b.exact ≠ 0) : Operator.modulo.apply a b =
      .ok (.ofFloat (flooredRemainder a.toFloat b.toFloat)) := by
  have hnearest := nearest_flooredRemainder ha hb hne
  have hzero : (b.toFloat == 0.0) = false := by
    rw [← Bool.not_eq_true, beq_zero_iff hb]
    exact hne
  have hcompute : Operator.modulo.compute a b =
      .ok (.ofFloat (flooredRemainder a.toFloat b.toFloat)) := by
    rw [Operator.compute, if_neg (by rw [hzero]; exact Bool.false_ne_true)]
    exact congrArg Except.ok (Number.ofResult_of_isNaN_eq_false hnearest.isNaN_eq _)
  rw [Operator.apply, hcompute]
  show (if !(flooredRemainder a.toFloat b.toFloat).isFinite && a.isFinite && b.isFinite then _
    else _) = _
  rw [isFinite_flooredRemainder ha hb hne]
  rfl

theorem Operator.exists_apply_modulo {a b : Number} (ha : a.isFinite = true)
    (hb : b.isFinite = true) (hne : b.exact ≠ 0) : ∃ r, Operator.modulo.apply a b = .ok r ∧
      r.isFinite = true ∧ r.exact = rounded (flooredMod a.exact b.exact) := by
  have hfinite := isFinite_flooredRemainder ha hb hne
  exact ⟨_, Operator.apply_modulo ha hb hne, hfinite,
    (nearest_flooredRemainder ha hb hne).toRat_eq hfinite⟩

/-- **A remainder lies between zero and the divisor, which it may reach.**  For a finite dividend
and a finite divisor other than zero there is a finite remainder; it has the sign of the divisor
and is not larger.  It is the divisor exactly where the magnitude of the exact remainder lies in the
upper half of the gap below the magnitude of the divisor, or in the middle of that gap with the
divisor's significand even. -/
theorem modulo_within_divisor {a b : Number} (ha : a.isFinite = true) (hb : b.isFinite = true)
    (hne : b.exact ≠ 0) :
    ∃ r, Operator.modulo.apply a b = .ok r ∧ r.isFinite = true ∧
      (0 < b.exact → 0 ≤ r.exact ∧ r.exact ≤ b.exact) ∧
      (b.exact < 0 → b.exact ≤ r.exact ∧ r.exact ≤ 0) ∧
      (r.exact = b.exact ↔
        2 * (|b.exact| - |flooredMod a.exact b.exact|) < gapBelow b.toFloat ∨
        2 * (|b.exact| - |flooredMod a.exact b.exact|) = gapBelow b.toFloat ∧
          Even (significand b.toFloat)) := by
  obtain ⟨r, happly, hfinite, hvalue⟩ := Operator.exists_apply_modulo ha hb hne
  have hlt := abs_flooredMod_lt (a := a.exact) hne
  have hself : rounded b.exact = b.exact := ((nearest_self hb).toRat_eq hb).symm
  have hpositive : 0 < b.exact → 0 ≤ r.exact ∧ r.exact ≤ b.exact := by
    intro hpos
    have hlow : 0 ≤ flooredMod a.exact b.exact := flooredMod_nonneg hpos
    rw [abs_of_nonneg hlow, abs_of_pos hpos] at hlt
    rw [hvalue]
    exact ⟨rounded_nonneg hlow, (rounded_mono hlt.le).trans hself.le⟩
  have hnegative : b.exact < 0 → b.exact ≤ r.exact ∧ r.exact ≤ 0 := by
    intro hneg
    have hhigh : flooredMod a.exact b.exact ≤ 0 := flooredMod_nonpos hneg
    rw [abs_of_nonpos hhigh, abs_of_neg hneg, neg_lt_neg_iff] at hlt
    rw [hvalue]
    exact ⟨hself.ge.trans (rounded_mono hlt.le), rounded_zero ▸ rounded_mono hhigh⟩
  refine ⟨r, happly, hfinite, hpositive, hnegative, ?_⟩
  have hreach : |r.exact| = |b.exact| ↔ r.exact = b.exact := by
    rcases lt_or_gt_of_ne hne with hneg | hpos
    · rw [abs_of_nonpos (hnegative hneg).2, abs_of_neg hneg, neg_inj]
    · rw [abs_of_nonneg (hpositive hpos).1, abs_of_pos hpos]
  rw [← hreach, hvalue]
  exact abs_rounded_eq_iff hb hne hlt

/-- A dividend next to zero, of the other sign, leaves the divisor itself. -/
theorem modulo_within_divisor_reached :
    (Number.isFinite (-1e-20) = true ∧ Number.isFinite 1.0 = true ∧ Number.exact 1.0 ≠ 0 ∧
      ∃ r, Operator.modulo.apply (-1e-20) 1.0 = .ok r ∧ r.exact = Number.exact 1.0) ∧
    Number.isFinite 1e-20 = true ∧ Number.isFinite (-1.0) = true ∧ Number.exact (-1.0) < 0 ∧
      ∃ r, Operator.modulo.apply 1e-20 (-1.0) = .ok r ∧ r.exact = Number.exact (-1.0) := by
  constructor
  · have ha : Number.isFinite (-1e-20) = true := by decide +kernel
    have hb : Number.isFinite 1.0 = true := by decide +kernel
    have hne : Number.exact 1.0 ≠ 0 := by decide +kernel
    have hgap : 2 * (|Number.exact 1.0| -
        |flooredMod (Number.exact (-1e-20)) (Number.exact 1.0)|) <
          gapBelow (1.0 : Number).toFloat := by decide +kernel
    obtain ⟨r, happly, -, -, -, hreach⟩ := modulo_within_divisor ha hb hne
    exact ⟨ha, hb, hne, r, happly, hreach.mpr (Or.inl hgap)⟩
  · have ha : Number.isFinite 1e-20 = true := by decide +kernel
    have hb : Number.isFinite (-1.0) = true := by decide +kernel
    have hneg : Number.exact (-1.0) < 0 := by decide +kernel
    have hgap : 2 * (|Number.exact (-1.0)| -
        |flooredMod (Number.exact 1e-20) (Number.exact (-1.0))|) <
          gapBelow (-1.0 : Number).toFloat := by decide +kernel
    obtain ⟨r, happly, -, -, -, hreach⟩ := modulo_within_divisor ha hb hneg.ne
    exact ⟨ha, hb, hneg, r, happly, hreach.mpr (Or.inl hgap)⟩

/-- The divisor is no strict bound. -/
theorem modulo_not_strictly_within_divisor :
    ¬∀ a b : Number, a.isFinite = true → b.isFinite = true → b.exact ≠ 0 →
      ∃ r, Operator.modulo.apply a b = .ok r ∧
        (0 < b.exact → 0 ≤ r.exact ∧ r.exact < b.exact) ∧
        (b.exact < 0 → b.exact < r.exact ∧ r.exact ≤ 0) := by
  intro h
  obtain ⟨r, happly, hstrict, -⟩ := h (-1e-20) 1.0 (by decide +kernel) (by decide +kernel)
    (by decide +kernel)
  have hone : Operator.modulo.apply (-1e-20) 1.0 = .ok 1.0 := by decide +kernel
  obtain rfl := Except.ok.inj (happly.symm.trans hone)
  exact lt_irrefl _ (hstrict (by decide +kernel)).2

end Modulo

end Reckoner
