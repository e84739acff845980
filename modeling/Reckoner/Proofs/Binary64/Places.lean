/-
# `Reckoner.Proofs.Binary64.Places` — decimal places, as an operation on rational numbers

Rounding a double to decimal places takes five steps: it is scaled, that is rounded, the
nearest integer is taken, it is scaled back, and that is rounded.  `placed` is the same on
rational numbers, and `roundPlaces_spec` says so; a number whose scaling leaves the range
stays as it is, in either.

Each of the steps keeps the order, and so does the whole (`placed_mono`): where only one of
two numbers can be scaled, the other one is beyond all that scaling back can lead to.
-/
import Reckoner.Binary64.Rounding
import Reckoner.Proofs.Binary64.Integral
import Reckoner.Proofs.Binary64.TiesToEven
import Reckoner.Proofs.Binary64.Range

namespace Reckoner.Binary64

open Float.Model (UnpackedFloat)
open Float.Model.UnpackedFloat

/-! ## The nearest integer, away from zero -/

/-- The nearest integer; a half goes away from zero. -/
def halfAway (q : Rat) : Int := if 0 ≤ q then ⌊q + 1 / 2⌋ else -⌊-q + 1 / 2⌋

theorem halfAway_of_nonneg {q : Rat} (hq : 0 ≤ q) : halfAway q = ⌊q + 1 / 2⌋ := if_pos hq

theorem halfAway_neg (q : Rat) : halfAway (-q) = -halfAway q := by
  rcases lt_trichotomy q 0 with hq | rfl | hq
  · rw [halfAway, halfAway, if_pos (by linarith), if_neg (not_le.mpr hq), neg_neg]
  · norm_num [halfAway]
  · rw [halfAway, halfAway, if_neg (by linarith), if_pos hq.le, neg_neg]

theorem halfAway_nonneg {q : Rat} (hq : 0 ≤ q) : 0 ≤ halfAway q := by
  rw [halfAway_of_nonneg hq]
  exact Int.floor_nonneg.mpr (by linarith)

theorem halfAway_eq_iff {q : Rat} (hq : 0 ≤ q) {n : Int} :
    halfAway q = n ↔ n - 1 / 2 ≤ q ∧ q < n + 1 / 2 := by
  rw [halfAway_of_nonneg hq, Int.floor_eq_iff]
  constructor <;> rintro ⟨h, h'⟩ <;> constructor <;> linarith

@[simp] theorem halfAway_intCast (n : Int) : halfAway n = n := by
  rcases le_total 0 n with hn | hn
  · have hcast : (0 : Rat) ≤ n := by exact_mod_cast hn
    exact (halfAway_eq_iff hcast).mpr ⟨by linarith, by linarith⟩
  · have hcast : (0 : Rat) ≤ ((-n : Int) : Rat) := by exact_mod_cast neg_nonneg.mpr hn
    have hneg : halfAway ((-n : Int) : Rat) = -n :=
      (halfAway_eq_iff hcast).mpr ⟨by linarith, by linarith⟩
    rw [Int.cast_neg, halfAway_neg] at hneg
    exact neg_inj.mp hneg

theorem halfAway_mono : Monotone halfAway := by
  have hpositive : ∀ {q r : Rat}, 0 ≤ q → q ≤ r → halfAway q ≤ halfAway r := by
    intro q r hq hqr
    rw [halfAway_of_nonneg hq, halfAway_of_nonneg (hq.trans hqr)]
    exact Int.floor_mono (by linarith)
  intro q r hqr
  rcases le_total 0 q with hq | hq
  · exact hpositive hq hqr
  rcases le_total 0 r with hr | hr
  · have hneg := halfAway_nonneg (neg_nonneg.mpr hq)
    rw [halfAway_neg] at hneg
    exact (neg_nonneg.mp hneg).trans (halfAway_nonneg hr)
  · have hneg := hpositive (neg_nonneg.mpr hr) (neg_le_neg hqr)
    rwa [halfAway_neg, halfAway_neg, neg_le_neg_iff] at hneg

theorem halfAway_factor (s : UnpackedFloat.Sign) (q : Rat) :
    (halfAway (factor s * q) : Rat) = factor s * halfAway q := by
  cases s with
  | positive => rw [factor, one_mul, one_mul]
  | negative => rw [factor, neg_one_mul, neg_one_mul, halfAway_neg, Int.cast_neg]

/-- Integer arithmetic for a significand whose last `k` bits stand behind the point. -/
theorem halfAway_significand (m k : Nat) :
    halfAway ((m : Rat) * 2 ^ (-(k : Int))) = ((2 * m + 2 ^ k) / 2 ^ (k + 1) : Nat) := by
  have hpow : (0 : Rat) < 2 ^ k := by positivity
  have hhalf : (m : Rat) * 2 ^ (-(k : Int)) + 1 / 2 =
      ((2 * m + 2 ^ k : Nat) : Rat) / (2 ^ (k + 1) : Nat) := by
    rw [zpow_neg, zpow_natCast]
    push_cast
    field_simp
    ring
  rw [halfAway_of_nonneg (by positivity), hhalf, Rat.floor_natCast_div_natCast, Int.natCast_div]

/-- `roundHalfAway` goes to the nearest integer, for which the bits of a double suffice. -/
theorem roundHalfAway_spec {x : Float} (hx : x.isFinite = true) :
    (roundHalfAway x).isFinite = true ∧ toRat (roundHalfAway x) = halfAway (toRat x) := by
  have hkeep : ∀ n : Int, toRat x = n → toRat x = halfAway (toRat x) := by
    intro n hn
    rw [hn, halfAway_intCast]
  rcases finite_cases hx with ⟨s, hp⟩ | ⟨s, m, e, hm, hp⟩
  · have hround : roundHalfAway x = x := by rw [roundHalfAway, hp]
    rw [hround]
    exact ⟨hx, hkeep 0 (by rw [toRat_of_zero hp, Int.cast_zero])⟩
  · by_cases he : 0 ≤ e
    · have hround : roundHalfAway x = x := by simp only [roundHalfAway, hp, if_pos he]
      obtain ⟨n, hn⟩ := (exists_int_iff m e).mpr (Or.inl he)
      rw [hround]
      refine ⟨hx, hkeep (s.apply n.toNat) ?_⟩
      have hnonneg : (0 : Int) ≤ n := by
        have : (0 : Rat) ≤ n := hn ▸ by positivity
        exact_mod_cast this
      have hcast : ((n.toNat : Nat) : Rat) = n := by exact_mod_cast Int.toNat_of_nonneg hnonneg
      rw [toRat_of_parts hp, hn, cast_apply, hcast]
    · obtain ⟨k, hk⟩ : ∃ k : Nat, e = -(k : Int) := ⟨(-e).toNat, by omega⟩
      have hk' : (-e).toNat = k := by omega
      have hround : roundHalfAway x = ofParts s ((2 * m + 2 ^ k) / 2 ^ (k + 1)) 0 := by
        simp only [roundHalfAway, hp, if_neg he, hk']
        rfl
      have hsize : (2 * m + 2 ^ k) / 2 ^ (k + 1) < 2 ^ 53 := by
        have hlt := (canonical_of_parts hp).lt
        have hone : 2 ^ 1 ≤ 2 ^ (k + 1) := Nat.pow_le_pow_right two_pos (by omega)
        rw [Nat.div_lt_iff_lt_mul (by positivity)]
        have := Nat.mul_le_mul_left (2 ^ 53) hone
        have := pow_succ 2 k
        omega
      obtain ⟨hfinite, hvalue⟩ := ofParts_exact s hsize (e := 0) (by norm_num) (by norm_num)
      rw [hround]
      refine ⟨hfinite, ?_⟩
      rw [hvalue, cast_apply, zpow_zero, mul_one, toRat_of_parts hp, halfAway_factor, hk,
        halfAway_significand, Int.cast_natCast]

theorem roundHalfAway_of_not_finite {x : Float} (hx : x.isFinite = false) :
    roundHalfAway x = x := by
  rcases not_finite_cases hx with h | ⟨s, h⟩
  · rw [roundHalfAway, parts, h]
  · rw [roundHalfAway, parts, h]

/-! ## Scaling -/

/-- The number of steps of the last decimal place that make up one. -/
def steps (places : Nat) : Nat := 10 ^ min places mostPlaces

theorem one_le_steps (places : Nat) : (1 : Rat) ≤ steps places := by
  exact_mod_cast Nat.one_le_pow _ _ (by norm_num)

theorem steps_le (places : Nat) : steps places ≤ 10 ^ 15 :=
  Nat.pow_le_pow_right (by norm_num) (min_le_right _ _)

theorem steps_pos (places : Nat) : (0 : Rat) < steps places := one_pos.trans_le (one_le_steps _)

theorem scale_spec (places : Nat) :
    (scale places).isFinite = true ∧ toRat (scale places) = steps places := by
  have hnearest : Nearest (scale places) (steps places) := nearest_ofNat _
  have hsize : (steps places : Rat) ≤ 10 ^ 15 := by exact_mod_cast steps_le places
  have hrepresentable : Representable (steps places) :=
    ⟨steps places, 0, by norm_num, by
      rw [Nat.abs_cast]
      exact_mod_cast (steps_le places).trans (by norm_num), by simp⟩
  have hrange : |(steps places : Rat)| < 2 ^ (1024 : Int) := by
    rw [Nat.abs_cast]
    calc (steps places : Rat) ≤ 10 ^ 15 := hsize
      _ < 2 ^ (53 : Int) := by norm_num
      _ ≤ 2 ^ (1024 : Int) := zpow_le_zpow_right₀ one_le_two (by norm_num)
  have hfinite := hnearest.isFinite_iff.mpr (hrepresentable.abs_lt_overflowBound hrange)
  exact ⟨hfinite, (hnearest.toRat_eq hfinite).trans (rounded_of_representable hrepresentable)⟩

/-! ## Rounding to places -/

def stepCount (places : Nat) (q : Rat) : Int := halfAway (rounded (q * steps places))

/-- A number to some decimal places, with a rounding after either scaling. -/
def placed (places : Nat) (q : Rat) : Rat :=
  if |q * steps places| < overflowBound then rounded (stepCount places q / steps places) else q

theorem placed_of_lt {places : Nat} {q : Rat} (h : |q * steps places| < overflowBound) :
    placed places q = rounded (stepCount places q / steps places) := if_pos h

theorem placed_of_le {places : Nat} {q : Rat} (h : overflowBound ≤ |q * steps places|) :
    placed places q = q := if_neg (not_lt.mpr h)

/-- A zero is added after the rounding.  It changes nothing but the sign of a zero. -/
theorem add_zero_spec {z : Float} (hz : z.isFinite = true) :
    (z + 0.0).isFinite = true ∧ toRat (z + 0.0) = toRat z ∧ parts (z + 0.0) ≠ .zero .negative := by
  have hself := nearest_self hz
  have hfinite : (z + 0.0).isFinite = true := by
    rw [isFinite_add_iff isFinite_zero, toRat_zero, add_zero]
    exact ⟨hz, hself.isFinite_iff.mp hz⟩
  have hvalue : toRat (z + 0.0) = toRat z := by
    rw [toRat_add isFinite_zero hfinite, toRat_zero, add_zero, ← hself.toRat_eq hz]
  refine ⟨hfinite, hvalue, fun hzero => ?_⟩
  obtain ⟨s, hs⟩ := exists_zero_of_toRat hz (hvalue.symm.trans (toRat_of_zero hzero))
  have hparts : parts (z + 0.0) = .zero .positive := by
    rw [add_eq, hs]
    cases s <;> with_unfolding_all rfl
  exact UnpackedFloat.noConfusion (hparts.symm.trans hzero) nofun

theorem roundPlaces_of_lost (places : Nat) {x : Float} (h : (x * scale places).isFinite = false) :
    roundPlaces places x = x := by
  have hlost : (roundHalfAway (x * scale places) / scale places).isFinite = false := by
    rw [roundHalfAway_of_not_finite h]
    exact not_finite_div h _
  rw [roundPlaces, hlost]
  rfl

theorem roundPlaces_of_not_finite (places : Nat) {x : Float} (hx : x.isFinite = false) :
    roundPlaces places x = x := roundPlaces_of_lost places (not_finite_mul hx _)

theorem roundPlaces_of_le (places : Nat) {x : Float}
    (h : overflowBound ≤ |toRat x * steps places|) : roundPlaces places x = x := by
  obtain ⟨hscale, hsteps⟩ := scale_spec places
  refine roundPlaces_of_lost places ?_
  rw [← Bool.not_eq_true, isFinite_mul_iff hscale, hsteps]
  exact fun hlt => absurd hlt.2 (not_lt.mpr h)

section RoundPlaces

variable (places : Nat) {x : Float} (hx : x.isFinite = true)

include hx

theorem roundPlaces_of_lt (h : |toRat x * steps places| < overflowBound) :
    ∃ z : Float, z.isFinite = true ∧ toRat z = placed places (toRat x) ∧
      roundPlaces places x = z + 0.0 := by
  obtain ⟨hscale, hsteps⟩ := scale_spec places
  have hne : toRat (scale places) ≠ 0 := hsteps ▸ (steps_pos places).ne'
  have hproduct : (x * scale places).isFinite = true := by
    rw [isFinite_mul_iff hscale, hsteps]
    exact ⟨hx, h⟩
  obtain ⟨hcount, hvalue⟩ := roundHalfAway_spec hproduct
  rw [toRat_mul hscale hproduct, hsteps] at hvalue
  have hfinite : (roundHalfAway (x * scale places) / scale places).isFinite = true := by
    rw [isFinite_div_iff hscale hne, hsteps, abs_div, abs_of_pos (steps_pos places)]
    exact ⟨hcount, (div_le_self (abs_nonneg _) (one_le_steps places)).trans_lt
      ((nearest_self hcount).isFinite_iff.mp hcount)⟩
  refine ⟨_, hfinite, ?_, ?_⟩
  · rw [toRat_div hscale hne hfinite, hvalue, hsteps, placed_of_lt h, stepCount]
  · rw [roundPlaces, if_pos hfinite]

/-- Rounding to places gives a finite double, the one that `placed` says, and no negative zero. -/
theorem roundPlaces_spec :
    (roundPlaces places x).isFinite = true ∧
      toRat (roundPlaces places x) = placed places (toRat x) ∧
      parts (roundPlaces places x) ≠ .zero .negative := by
  rcases lt_or_ge |toRat x * steps places| overflowBound with h | h
  · obtain ⟨z, hz, hvalue, hround⟩ := roundPlaces_of_lt places hx h
    obtain ⟨hfinite, hsame, hsign⟩ := add_zero_spec hz
    rw [hround]
    exact ⟨hfinite, hsame.trans hvalue, hsign⟩
  · rw [roundPlaces_of_le places h]
    refine ⟨hx, (placed_of_le h).symm, fun hzero => absurd h (not_le.mpr ?_)⟩
    rw [toRat_of_zero hzero, zero_mul, abs_zero]
    exact largest_pos.trans largest_lt_overflowBound

end RoundPlaces

theorem isFinite_roundPlaces (places : Nat) (x : Float) :
    (roundPlaces places x).isFinite = x.isFinite := by
  cases hx : x.isFinite with
  | true => exact (roundPlaces_spec places hx).1
  | false => rw [roundPlaces_of_not_finite places hx, hx]

/-! ## The order -/

theorem placed_neg (places : Nat) (q : Rat) : placed places (-q) = -placed places q := by
  rw [placed, placed, neg_mul, abs_neg, stepCount, neg_mul, rounded_neg, halfAway_neg, ← stepCount,
    Int.cast_neg, neg_div, rounded_neg]
  split_ifs <;> rfl

/-- No number that can be scaled is rounded beyond one that cannot. -/
theorem rounded_stepCount_le {places : Nat} {q r : Rat}
    (hq : |q * steps places| < overflowBound) (hr : Representable r)
    (h : overflowBound ≤ r * steps places) : rounded (stepCount places q / steps places) ≤ r := by
  have hcount : (stepCount places q : Rat) ≤ largest := by
    obtain ⟨n, hn⟩ : ∃ n : Int, largest = n := by
      have hexists := (exists_int_iff (2 ^ 53 - 1) 971).mpr (Or.inl (by norm_num))
      have hcast : ((2 ^ 53 - 1 : Nat) : Rat) = 2 ^ 53 - 1 := by norm_num
      rwa [hcast] at hexists
    have hmono := halfAway_mono ((le_abs_self _).trans (abs_rounded_le_largest hq))
    rw [hn, halfAway_intCast] at hmono
    rw [hn]
    exact_mod_cast hmono
  refine hr.rounded_le ?_
  rw [div_le_iff₀ (steps_pos places)]
  exact hcount.trans (largest_lt_overflowBound.le.trans h)

/-- Where only one of two numbers can be scaled, the other one is out of its reach. -/
theorem placed_mono (places : Nat) {q r : Rat} (hq : Representable q) (hr : Representable r)
    (h : q ≤ r) : placed places q ≤ placed places r := by
  have hsteps := steps_pos places
  have hscaled : q * steps places ≤ r * steps places := mul_le_mul_of_nonneg_right h hsteps.le
  rcases lt_or_ge |q * steps places| overflowBound with hqin | hqout <;>
    rcases lt_or_ge |r * steps places| overflowBound with hrin | hrout
  · have hcount : (stepCount places q : Rat) ≤ stepCount places r := by
      exact_mod_cast halfAway_mono (rounded_mono hscaled)
    rw [placed_of_lt hqin, placed_of_lt hrin]
    exact rounded_mono (div_le_div_of_nonneg_right hcount hsteps.le)
  · -- the larger number cannot be scaled
    rw [placed_of_lt hqin, placed_of_le hrout]
    refine rounded_stepCount_le hqin hr ((le_abs.mp hrout).resolve_right fun hneg => ?_)
    exact absurd (neg_lt_of_abs_lt hqin) (by linarith)
  · -- the smaller number cannot be scaled
    have hneg : overflowBound ≤ -q * steps places := by
      rw [neg_mul]
      refine (le_abs.mp hqout).resolve_left fun hpos => ?_
      exact absurd (lt_of_abs_lt hrin) (by linarith)
    have hle := rounded_stepCount_le (q := -r) (by rwa [neg_mul, abs_neg]) hq.neg hneg
    rw [placed_of_le hqout, ← neg_le_neg_iff, ← placed_neg,
      placed_of_lt (by rwa [neg_mul, abs_neg])]
    exact hle
  · rwa [placed_of_le hqout, placed_of_le hrout]

theorem isNaN_roundPlaces (places : Nat) (x : Float) :
    (roundPlaces places x).isNaN = x.isNaN := by
  cases hx : x.isFinite with
  | true =>
      rw [(nearest_self hx).isNaN_eq, (nearest_self (roundPlaces_spec places hx).1).isNaN_eq]
  | false => rw [roundPlaces_of_not_finite places hx]

theorem roundPlaces_mono (places : Nat) {x y : Float} (h : x ≤ y) :
    roundPlaces places x ≤ roundPlaces places y := by
  cases hx : x.isFinite with
  | false =>
      rw [roundPlaces_of_not_finite places hx]
      rcases (le_iff_of_left hx).mp h with ⟨hminus, hy⟩ | ⟨-, hplus⟩
      · exact (le_iff_of_left hx).mpr (Or.inl ⟨hminus, (isNaN_roundPlaces places y).trans hy⟩)
      · have hy : y.isFinite = false := congrArg UnpackedFloat.isFinite hplus
        rwa [roundPlaces_of_not_finite places hy]
  | true =>
      cases hy : y.isFinite with
      | false =>
          rw [roundPlaces_of_not_finite places hy]
          rcases (le_iff_of_right hy).mp h with ⟨hplus, hx'⟩ | ⟨-, hminus⟩
          · exact (le_iff_of_right hy).mpr (Or.inl ⟨hplus, (isNaN_roundPlaces places x).trans hx'⟩)
          · exact absurd hx (Bool.eq_false_iff.mp (congrArg UnpackedFloat.isFinite hminus))
      | true =>
          obtain ⟨hxf, hxv, -⟩ := roundPlaces_spec places hx
          obtain ⟨hyf, hyv, -⟩ := roundPlaces_spec places hy
          rw [le_iff hxf hyf, hxv, hyv]
          exact placed_mono places (representable_toRat hx) (representable_toRat hy)
            ((le_iff hx hy).mp h)

/-! ## Equality -/

theorem eq_of_toRat_eq {x y : Float} (hx : x.isFinite = true) (hy : y.isFinite = true)
    (hxs : parts x ≠ .zero .negative) (hys : parts y ≠ .zero .negative)
    (h : toRat x = toRat y) : x = y := by
  have hforget : ∀ {u : UnpackedFloat}, u ≠ .zero .negative → forgetZeroSign u = u := by
    intro u hu
    rcases u with _ | _ | (_ | _) | _
    case zero.negative => exact absurd rfl hu
    all_goals rfl
  have hparts := (beq_iff_parts.mp ((beq_iff hx hy).mpr h)).2
  rw [hforget hxs, hforget hys] at hparts
  exact parts_injective hparts

end Reckoner.Binary64
