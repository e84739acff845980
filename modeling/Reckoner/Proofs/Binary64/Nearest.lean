/-
# `Reckoner.Proofs.Binary64.Nearest` — rounding, as an operation on rational numbers

A double has 53 bits, and no bit of it stands below `2 ^ (-1074)`.  A number that needs
more is rounded: it is measured in the unit of its last place (`unitExponent`), and the
measure goes to the nearest integer, to the even one of two (`roundEven`).  Here there
is no largest double yet; what lies beyond the range is a matter of `abs_rounded_lt_iff`.

* `representable_rounded` and `abs_sub_rounded_le` say that the outcome is a number of 53
  bits and that no other is nearer.
* `rounded_mono` is what most bounds come from: one that is a number of 53 bits survives
  rounding (`Representable.le_rounded`, `Representable.rounded_le`).
* `rounded_neg` leaves one sign to prove things for.
* `abs_rounded_lt_iff` says which numbers stay below `2 ^ 1024`.
-/
import Mathlib

namespace Reckoner.Binary64

/-! ## The nearest integer -/

/-- The nearest integer, the even one of two that are equally near. -/
def roundEven (q : Rat) : Int :=
  if q - ⌊q⌋ < 1 / 2 then ⌊q⌋
  else if 1 / 2 < q - ⌊q⌋ then ⌊q⌋ + 1
  else ⌊q⌋ + ⌊q⌋ % 2

theorem roundEven_spec (q : Rat) :
    |q - roundEven q| < 1 / 2 ∨ |q - roundEven q| = 1 / 2 ∧ Even (roundEven q) := by
  have hlow := Int.floor_le q
  have hhigh := Int.lt_floor_add_one q
  rw [roundEven]
  split_ifs with hlt hgt
  · exact Or.inl (by rw [abs_of_nonneg (by linarith)]; exact hlt)
  · left
    push_cast
    rw [abs_of_neg (by linarith)]
    linarith
  · right
    have hhalf : q - ⌊q⌋ = 1 / 2 := le_antisymm (not_lt.mp hgt) (not_lt.mp hlt)
    rcases Int.emod_two_eq_zero_or_one ⌊q⌋ with heven | hodd
    · rw [heven, add_zero, hhalf, abs_of_pos (by norm_num)]
      exact ⟨rfl, Int.even_iff.mpr heven⟩
    · rw [hodd]
      push_cast
      rw [show q - (⌊q⌋ + 1) = -(1 / 2) by linarith, abs_neg, abs_of_pos (by norm_num)]
      exact ⟨rfl, Int.even_add_one.mpr (Int.not_even_iff.mpr hodd)⟩

theorem abs_sub_roundEven_le (q : Rat) : |q - roundEven q| ≤ 1 / 2 := by
  rcases roundEven_spec q with h | ⟨h, -⟩
  · exact h.le
  · exact h.le

theorem eq_of_nearest {q : Rat} {m n : Int} (hm : |q - m| < 1 / 2 ∨ |q - m| = 1 / 2 ∧ Even m)
    (hn : |q - n| < 1 / 2 ∨ |q - n| = 1 / 2 ∧ Even n) : m = n := by
  have hdistance : ((|m - n| : Int) : Rat) ≤ |q - m| + |q - n| := by
    rw [Int.cast_abs, Int.cast_sub, ← abs_neg (q - m), neg_sub]
    exact abs_sub_le (m : Rat) q n
  have hsum : |q - m| + |q - n| < 1 ∨ |q - m| + |q - n| = 1 ∧ Even (m - n) := by
    rcases hm with hm | ⟨hm, hme⟩ <;> rcases hn with hn | ⟨hn, hne⟩
    · exact Or.inl (by linarith)
    · exact Or.inl (by linarith)
    · exact Or.inl (by linarith)
    · exact Or.inr ⟨by linarith, hme.sub hne⟩
  rcases hsum with hlt | ⟨heq, heven⟩
  · have hzero : |m - n| < 1 := by exact_mod_cast hdistance.trans_lt hlt
    exact Int.sub_eq_zero.mp (Int.abs_lt_one_iff.mp hzero)
  · -- halfway between neighbours one of the two is odd
    have hone : |m - n| ≤ 1 := by exact_mod_cast hdistance.trans heq.le
    obtain ⟨k, hk⟩ := heven
    rw [abs_le] at hone
    omega

theorem roundEven_eq_iff {q : Rat} {n : Int} :
    roundEven q = n ↔ |q - n| < 1 / 2 ∨ |q - n| = 1 / 2 ∧ Even n := by
  constructor
  · rintro rfl
    exact roundEven_spec q
  · exact eq_of_nearest (roundEven_spec q)

theorem abs_sub_roundEven_le_abs_sub (q : Rat) (n : Int) : |q - roundEven q| ≤ |q - n| := by
  by_contra h
  have hlt : |q - n| < 1 / 2 := (not_le.mp h).trans_le (abs_sub_roundEven_le q)
  rw [roundEven_eq_iff.mpr (Or.inl hlt)] at h
  exact h le_rfl

@[simp] theorem roundEven_intCast (n : Int) : roundEven n = n :=
  roundEven_eq_iff.mpr (Or.inl (by norm_num))

theorem roundEven_neg (q : Rat) : roundEven (-q) = -roundEven q := by
  rw [roundEven_eq_iff]
  have habs : |(-q) - ((-roundEven q : Int) : Rat)| = |q - roundEven q| := by
    rw [← abs_neg]
    push_cast
    ring_nf
  rw [habs, even_neg]
  exact roundEven_spec q

theorem roundEven_mono : Monotone roundEven := by
  intro q r hqr
  by_contra hlt
  have hlt : roundEven r + 1 ≤ roundEven q := not_le.mp hlt
  have hcast : (roundEven r : Rat) + 1 ≤ roundEven q := by exact_mod_cast hlt
  have hq := abs_le.mp (abs_sub_roundEven_le q)
  have hr := abs_le.mp (abs_sub_roundEven_le r)
  -- both numbers lie halfway, so they are equal, and have one nearest integer
  obtain rfl : q = r := by linarith
  omega

/-! ## The unit of the last place -/

theorem natCast_mul_two_zpow_add (n : Nat) (k : Int) (d : Nat) :
    (n : Rat) * 2 ^ (k + d) = (n * 2 ^ d : Nat) * 2 ^ k := by
  rw [zpow_add₀ two_ne_zero, zpow_natCast]
  push_cast
  ring

/-- The exponent of the last of 53 bits, or the least exponent there is. -/
def unitExponent (q : Rat) : Int := max (Int.log 2 |q| - 52) (-1074)

theorem le_unitExponent (q : Rat) : -1074 ≤ unitExponent q := le_max_right _ _

theorem unitExponent_neg (q : Rat) : unitExponent (-q) = unitExponent q := by
  rw [unitExponent, unitExponent, abs_neg]

theorem abs_lt_unit (q : Rat) : |q| < 2 ^ (unitExponent q + 53) := by
  have hlog : |q| < 2 ^ (Int.log 2 |q| + 1) := by
    exact_mod_cast Int.lt_zpow_succ_log_self (R := Rat) (b := 2) (by norm_num) |q|
  refine hlog.trans_le (zpow_le_zpow_right₀ (by norm_num) ?_)
  have : Int.log 2 |q| - 52 ≤ unitExponent q := le_max_left _ _
  omega

theorem unit_le_abs {q : Rat} (hq : q ≠ 0) (hu : unitExponent q ≠ -1074) :
    2 ^ (unitExponent q + 52) ≤ |q| := by
  have hmax : unitExponent q = Int.log 2 |q| - 52 :=
    (max_choice _ _).resolve_right hu
  rw [hmax, sub_add_cancel]
  exact_mod_cast Int.zpow_log_le_self (R := Rat) (b := 2) (by norm_num) (abs_pos.mpr hq)

theorem unitExponent_eq {q : Rat} {k : Int} (hk : -1074 ≤ k) (hlt : |q| < 2 ^ (k + 53))
    (hle : 2 ^ (k + 52) ≤ |q| ∨ k = -1074) (hq : q ≠ 0) : unitExponent q = k := by
  have hpos : 0 < |q| := abs_pos.mpr hq
  have hlog : Int.log 2 |q| < k + 53 :=
    (Int.lt_zpow_iff_log_lt (by norm_num) hpos).mp (by exact_mod_cast hlt)
  rw [unitExponent]
  rcases hle with hle | rfl
  · have hlog' : k + 52 ≤ Int.log 2 |q| :=
      (Int.zpow_le_iff_le_log (by norm_num) hpos).mp (by exact_mod_cast hle)
    omega
  · omega

theorem unitExponent_of_binade {q : Rat} {k : Int} (hk : -1074 ≤ k) (hle : 2 ^ (k + 52) ≤ q)
    (hlt : q < 2 ^ (k + 53)) : unitExponent q = k := by
  have hpos : 0 < q := lt_of_lt_of_le (by positivity) hle
  rw [← abs_of_pos hpos] at hle hlt
  exact unitExponent_eq hk hlt (Or.inl hle) hpos.ne'

/-- A number that is measured in the unit of its last place. -/
def measure (q : Rat) : Rat := q / 2 ^ unitExponent q

theorem measure_neg (q : Rat) : measure (-q) = -measure q := by
  rw [measure, measure, unitExponent_neg, neg_div]

theorem measure_mul_unit (q : Rat) : measure q * 2 ^ unitExponent q = q :=
  div_mul_cancel₀ q (by positivity)

theorem abs_measure_lt (q : Rat) : |measure q| < 2 ^ 53 := by
  have hunit : (0 : Rat) < 2 ^ unitExponent q := by positivity
  rw [measure, abs_div, abs_of_pos hunit, div_lt_iff₀ hunit, mul_comm]
  calc |q| < 2 ^ (unitExponent q + 53) := abs_lt_unit q
    _ = 2 ^ unitExponent q * 2 ^ 53 := by rw [zpow_add₀ (by norm_num)]; norm_cast

/-- A rounded measure has 53 bits, or is the next power of two. -/
theorem abs_roundEven_measure_le (q : Rat) : |roundEven (measure q)| ≤ 2 ^ 53 := by
  have hlt := abs_lt.mp (abs_measure_lt q)
  have hlow := roundEven_mono hlt.1.le
  have hhigh := roundEven_mono hlt.2.le
  rw [show (-2 ^ 53 : Rat) = ((-2 ^ 53 : Int) : Rat) by norm_num, roundEven_intCast] at hlow
  rw [show (2 ^ 53 : Rat) = ((2 ^ 53 : Int) : Rat) by norm_num, roundEven_intCast] at hhigh
  exact abs_le.mpr ⟨hlow, hhigh⟩

/-- A measure has all 53 bits, unless the unit is the least there is. -/
theorem le_abs_measure {q : Rat} (hq : q ≠ 0) (hu : unitExponent q ≠ -1074) :
    2 ^ 52 ≤ |measure q| := by
  have hunit : (0 : Rat) < 2 ^ unitExponent q := by positivity
  have hle := unit_le_abs hq hu
  rw [add_comm, zpow_add₀ (by norm_num)] at hle
  rw [measure, abs_div, abs_of_pos hunit, le_div_iff₀ hunit]
  exact_mod_cast hle

theorem le_roundEven_measure {q : Rat} (hq : 0 < q) (hu : unitExponent q ≠ -1074) :
    2 ^ 52 ≤ roundEven (measure q) := by
  have hmeasure : (2 : Rat) ^ 52 ≤ measure q := by
    have hpos : 0 < measure q := div_pos hq (by positivity)
    rw [← abs_of_pos hpos]
    exact le_abs_measure hq.ne' hu
  have hround := roundEven_mono hmeasure
  rwa [show (2 ^ 52 : Rat) = ((2 ^ 52 : Int) : Rat) by norm_num, roundEven_intCast] at hround

/-! ## Rounding -/

/-- The nearest number of 53 bits none of which stands below `2 ^ (-1074)`. -/
def rounded (q : Rat) : Rat := roundEven (measure q) * 2 ^ unitExponent q

@[simp] theorem rounded_zero : rounded 0 = 0 := by
  have hzero : roundEven (measure 0) = 0 := by
    rw [measure, zero_div]
    exact_mod_cast roundEven_intCast 0
  rw [rounded, hzero, Int.cast_zero, zero_mul]

theorem rounded_neg (q : Rat) : rounded (-q) = -rounded q := by
  rw [rounded, rounded, measure_neg, roundEven_neg, unitExponent_neg]
  push_cast
  ring

/-- A number of 53 bits, or the next power of two; it may exceed the range of doubles. -/
def Representable (q : Rat) : Prop :=
  ∃ n k : Int, -1074 ≤ k ∧ |n| ≤ 2 ^ 53 ∧ q = n * 2 ^ k

theorem representable_two_pow {k : Int} (hk : -1074 ≤ k) : Representable (2 ^ k) :=
  ⟨1, k, hk, by norm_num, by push_cast; ring⟩

theorem representable_one : Representable 1 := ⟨1, 0, by norm_num, by norm_num, by norm_num⟩

theorem Representable.neg {q : Rat} (h : Representable q) : Representable (-q) := by
  obtain ⟨n, k, hk, hn, rfl⟩ := h
  exact ⟨-n, k, hk, by rwa [abs_neg], by rw [Int.cast_neg, neg_mul]⟩

theorem representable_rounded (q : Rat) : Representable (rounded q) :=
  ⟨roundEven (measure q), unitExponent q, le_unitExponent q, abs_roundEven_measure_le q, rfl⟩

theorem rounded_of_measure {q : Rat} {n : Int} (h : measure q = n) : rounded q = q := by
  rw [rounded, h, roundEven_intCast, ← h, measure_mul_unit]

theorem rounded_of_representable {q : Rat} (h : Representable q) : rounded q = q := by
  obtain ⟨n, k, hk, hn, rfl⟩ := h
  by_cases hzero : (n : Rat) * 2 ^ k = 0
  · rw [hzero, rounded_zero]
  have hpow : (0 : Rat) < 2 ^ k := by positivity
  have hcast : (|(n : Rat)|) ≤ 2 ^ 53 := by exact_mod_cast hn
  -- the unit is no larger than the last place of the number, unless the number is a power of two
  by_cases hu : unitExponent ((n : Rat) * 2 ^ k) ≤ k
  · obtain ⟨d, hd⟩ := Int.le.dest hu
    have hshift : (2 : Rat) ^ k = 2 ^ d * 2 ^ unitExponent ((n : Rat) * 2 ^ k) := by
      rw [← zpow_natCast, ← zpow_add₀ (by norm_num), add_comm, hd]
    apply rounded_of_measure (n := n * 2 ^ d)
    rw [measure, div_eq_iff (by positivity), Int.cast_mul, Int.cast_pow, Int.cast_ofNat, mul_assoc,
      ← hshift]
  · have hle := unit_le_abs hzero (by omega)
    rw [abs_mul, abs_of_pos hpow] at hle
    have hupper : (2 : Rat) ^ (unitExponent ((n : Rat) * 2 ^ k) + 52) ≤ 2 ^ (k + 53) :=
      calc (2 : Rat) ^ (unitExponent ((n : Rat) * 2 ^ k) + 52) ≤ |(n : Rat)| * 2 ^ k := hle
        _ ≤ 2 ^ 53 * 2 ^ k := by gcongr
        _ = 2 ^ (k + 53) := by rw [zpow_add₀ (by norm_num)]; norm_cast; ring
    have hk' : unitExponent ((n : Rat) * 2 ^ k) = k + 1 := by
      have := (zpow_le_zpow_iff_right₀ (by norm_num : (1 : Rat) < 2)).mp hupper
      omega
    have hfull : |(n : Rat)| = 2 ^ 53 := by
      refine le_antisymm hcast (le_of_mul_le_mul_right ?_ hpow)
      calc (2 : Rat) ^ 53 * 2 ^ k = 2 ^ (k + 1 + 52) := by
            rw [add_assoc, zpow_add₀ (by norm_num)]; norm_cast; ring
        _ ≤ |(n : Rat)| * 2 ^ k := by rw [← hk']; exact hle
    have hn' : n = 2 ^ 53 ∨ n = -2 ^ 53 := by
      have : |n| = 2 ^ 53 := by exact_mod_cast hfull
      exact (abs_eq (by norm_num)).mp this
    have htwice : (2 : Rat) ^ (k + 1) = 2 ^ k * 2 := by rw [zpow_add_one₀ (by norm_num)]
    rcases hn' with rfl | rfl
    · apply rounded_of_measure (n := 2 ^ 52)
      rw [measure, hk', htwice, div_eq_iff (by positivity)]
      push_cast
      ring
    · apply rounded_of_measure (n := -2 ^ 52)
      rw [measure, hk', htwice, div_eq_iff (by positivity)]
      push_cast
      ring

theorem rounded_nonneg {q : Rat} (hq : 0 ≤ q) : 0 ≤ rounded q := by
  have hmeasure : (0 : Rat) ≤ measure q := div_nonneg hq (by positivity)
  have hround := roundEven_mono hmeasure
  rw [show roundEven 0 = 0 by exact_mod_cast roundEven_intCast 0] at hround
  exact mul_nonneg (by exact_mod_cast hround) (by positivity)

/-- Within a binade the unit is the same; between two binades lies a power of two. -/
theorem rounded_le_of_nonneg {q r : Rat} (hq : 0 < q) (hqr : q ≤ r) : rounded q ≤ rounded r := by
  have hr : 0 < r := hq.trans_le hqr
  rcases lt_trichotomy (unitExponent q) (unitExponent r) with h | h | h
  · have hupper : (roundEven (measure q) : Rat) ≤ 2 ^ 53 := by
      exact_mod_cast (le_abs_self _).trans (abs_roundEven_measure_le q)
    have hlower : (2 : Rat) ^ 52 ≤ roundEven (measure r) := by
      exact_mod_cast le_roundEven_measure hr (by have := le_unitExponent q; omega)
    calc rounded q ≤ 2 ^ 53 * 2 ^ unitExponent q := by rw [rounded]; gcongr
      _ = 2 ^ 52 * 2 ^ (unitExponent q + 1) := by rw [zpow_add_one₀ (by norm_num)]; ring
      _ ≤ 2 ^ 52 * 2 ^ unitExponent r := by gcongr <;> norm_num; omega
      _ ≤ rounded r := by rw [rounded]; gcongr
  · have hmeasure : measure q ≤ measure r := by
      rw [measure, measure, h]
      gcongr
    have hround : (roundEven (measure q) : Rat) ≤ roundEven (measure r) := by
      exact_mod_cast roundEven_mono hmeasure
    rw [rounded, rounded, h]
    gcongr
  · exfalso
    have hle := unit_le_abs hq.ne' (by have := le_unitExponent r; omega)
    have hlt := abs_lt_unit r
    rw [abs_of_pos hq] at hle
    rw [abs_of_pos hr] at hlt
    have := (zpow_lt_zpow_iff_right₀ (by norm_num : (1 : Rat) < 2)).mp
      (hle.trans_lt (hqr.trans_lt hlt))
    omega

theorem rounded_mono : Monotone rounded := by
  intro q r hqr
  rcases lt_trichotomy 0 q with hq | rfl | hq
  · exact rounded_le_of_nonneg hq hqr
  · rw [rounded_zero]
    exact rounded_nonneg hqr
  · by_cases hr : 0 ≤ r
    · have hneg := rounded_nonneg (neg_nonneg.mpr hq.le)
      rw [rounded_neg] at hneg
      exact (neg_nonneg.mp hneg).trans (rounded_nonneg hr)
    · have hle := rounded_le_of_nonneg (neg_pos.mpr (not_le.mp hr)) (neg_le_neg hqr)
      rw [rounded_neg, rounded_neg] at hle
      exact neg_le_neg_iff.mp hle

theorem Representable.le_rounded {q r : Rat} (hr : Representable r) (h : r ≤ q) :
    r ≤ rounded q := by
  rw [← rounded_of_representable hr]
  exact rounded_mono h

theorem Representable.rounded_le {q r : Rat} (hr : Representable r) (h : q ≤ r) :
    rounded q ≤ r := by
  rw [← rounded_of_representable hr]
  exact rounded_mono h

theorem abs_rounded (q : Rat) : |rounded q| = rounded |q| := by
  rcases le_total 0 q with hq | hq
  · rw [abs_of_nonneg hq, abs_of_nonneg (rounded_nonneg hq)]
  · rw [abs_of_nonpos hq, rounded_neg, abs_of_nonpos]
    have hneg := rounded_nonneg (neg_nonneg.mpr hq)
    rw [rounded_neg] at hneg
    exact neg_nonneg.mp hneg

/-- A number of 53 bits is a multiple of the unit, or lies below the binade of that unit. -/
theorem Representable.multiple_or_le {q : Rat} (h : Representable q) (u : Int) :
    (∃ n : Int, q = n * 2 ^ u) ∨ u ≠ -1074 ∧ |q| ≤ 2 ^ (u + 52) := by
  obtain ⟨n, k, hk, hn, rfl⟩ := h
  by_cases hu : u ≤ k
  · left
    obtain ⟨d, rfl⟩ := Int.le.dest hu
    refine ⟨n * 2 ^ d, ?_⟩
    rw [zpow_add₀ two_ne_zero, zpow_natCast]
    push_cast
    ring
  · refine Or.inr ⟨by omega, ?_⟩
    have hcast : |(n : Rat)| ≤ 2 ^ 53 := by exact_mod_cast hn
    have hpos : (0 : Rat) < 2 ^ k := by positivity
    rw [abs_mul, abs_of_pos hpos]
    calc |(n : Rat)| * 2 ^ k ≤ 2 ^ 53 * 2 ^ k := by gcongr
      _ = 2 ^ (k + 53) := by rw [zpow_add₀ two_ne_zero, mul_comm]; norm_cast
      _ ≤ 2 ^ (u + 52) := zpow_le_zpow_right₀ one_le_two (by omega)

theorem abs_sub_multiple (q : Rat) (k : Int) :
    |q - k * 2 ^ unitExponent q| = |measure q - k| * 2 ^ unitExponent q := by
  have hunit : (0 : Rat) < 2 ^ unitExponent q := by positivity
  rw [← abs_of_pos hunit, ← abs_mul, sub_mul, abs_of_pos hunit, measure_mul_unit]

theorem abs_sub_rounded_le_multiple (q : Rat) (n : Int) :
    |q - rounded q| ≤ |q - n * 2 ^ unitExponent q| := by
  have hunit : (0 : Rat) < 2 ^ unitExponent q := by positivity
  rw [rounded, abs_sub_multiple, abs_sub_multiple]
  exact mul_le_mul_of_nonneg_right (abs_sub_roundEven_le_abs_sub _ n) hunit.le

/-- No number of 53 bits is nearer than the rounded one. -/
theorem abs_sub_rounded_le {q r : Rat} (hr : Representable r) : |q - rounded q| ≤ |q - r| := by
  rcases eq_or_ne q 0 with rfl | hq
  · rw [rounded_zero, sub_zero, abs_zero]
    exact abs_nonneg _
  rcases hr.multiple_or_le (unitExponent q) with ⟨n, rfl⟩ | ⟨hu, hle⟩
  · exact abs_sub_rounded_le_multiple q n
  · -- the power of two between the two numbers is a multiple of the unit, and not farther than `r`
    have hfar := unit_le_abs hq hu
    have hpow : (2 : Rat) ^ (unitExponent q + 52) = 2 ^ 52 * 2 ^ unitExponent q := by
      rw [zpow_add₀ two_ne_zero, mul_comm]
      norm_cast
    rw [abs_le] at hle
    rcases le_total 0 q with hsign | hsign
    · rw [abs_of_nonneg hsign] at hfar
      refine (abs_sub_rounded_le_multiple q (2 ^ 52)).trans ?_
      rw [Int.cast_pow, Int.cast_ofNat, ← hpow, abs_of_nonneg (by linarith),
        abs_of_nonneg (by linarith)]
      linarith
    · rw [abs_of_nonpos hsign] at hfar
      refine (abs_sub_rounded_le_multiple q (-2 ^ 52)).trans ?_
      rw [Int.cast_neg, Int.cast_pow, Int.cast_ofNat, neg_mul, ← hpow,
        abs_of_nonpos (by linarith), abs_of_nonpos (by linarith)]
      linarith

/-! ## The range

The powers of two around the largest double are too large to be written out.  They are
multiples of `topHalf`, and everything here is said in multiples of it. -/

def largest : Rat := (2 ^ 53 - 1) * 2 ^ (971 : Int)

/-- Halfway from the largest double to the next power of two: from here on a number is rounded
out of the range. -/
def overflowBound : Rat := 2 ^ (1024 : Int) - 2 ^ (970 : Int)

def topHalf : Rat := 2 ^ (970 : Int)

theorem topHalf_pos : 0 < topHalf := zpow_pos two_pos _

theorem two_zpow_eq_topHalf (k : Nat) : (2 : Rat) ^ (970 + k : Int) = 2 ^ k * topHalf := by
  rw [topHalf, zpow_add₀ two_ne_zero, zpow_natCast, mul_comm]

theorem largest_eq : largest = (2 ^ 54 - 2) * topHalf := by
  rw [largest, show (971 : Int) = 970 + (1 : Nat) from rfl, two_zpow_eq_topHalf]
  ring

theorem overflowBound_eq : overflowBound = (2 ^ 54 - 1) * topHalf := by
  rw [overflowBound, show (1024 : Int) = 970 + (54 : Nat) from rfl, two_zpow_eq_topHalf, ← topHalf]
  ring

theorem largest_pos : 0 < largest := mul_pos (by norm_num) (zpow_pos two_pos _)

theorem largest_lt_overflowBound : largest < overflowBound := by
  rw [largest_eq, overflowBound_eq]
  exact mul_lt_mul_of_pos_right (by norm_num) topHalf_pos

theorem overflowBound_lt : overflowBound < 2 ^ (1024 : Int) :=
  sub_lt_self _ (zpow_pos two_pos _)

theorem representable_largest : Representable largest :=
  ⟨2 ^ 53 - 1, 971, by norm_num, by norm_num, by
    rw [largest, Int.cast_sub, Int.cast_pow, Int.cast_ofNat, Int.cast_one]⟩

/-- Around the largest double a number is measured in its unit. -/
theorem rounded_of_largest_le {q : Rat} (h : largest ≤ q) (h' : q < 2 ^ (1024 : Int)) {n : Int}
    (hn : roundEven (q / (2 * topHalf)) = n) : rounded q = n * (2 * topHalf) := by
  have hlow : (2 : Rat) ^ (970 + (53 : Nat) : Int) ≤ q := by
    rw [two_zpow_eq_topHalf]
    rw [largest_eq] at h
    refine (mul_le_mul_of_nonneg_right ?_ topHalf_pos.le).trans h
    norm_num
  have hunit : unitExponent q = 970 + (1 : Nat) :=
    unitExponent_of_binade (by norm_num) hlow h'
  rw [rounded, measure, hunit, two_zpow_eq_topHalf, pow_one, hn]

theorem rounded_overflowBound : rounded overflowBound = 2 ^ (1024 : Int) := by
  have hround : roundEven (overflowBound / (2 * topHalf)) = 2 ^ 53 := by
    rw [roundEven_eq_iff, overflowBound_eq, mul_div_mul_right _ _ topHalf_pos.ne']
    exact Or.inr ⟨by norm_num, by decide⟩
  rw [rounded_of_largest_le largest_lt_overflowBound.le overflowBound_lt hround,
    show (1024 : Int) = 970 + (54 : Nat) from rfl, two_zpow_eq_topHalf]
  push_cast
  ring

theorem rounded_of_between {q : Rat} (h : largest ≤ q) (h' : q < overflowBound) :
    rounded q = largest := by
  have hround : roundEven (q / (2 * topHalf)) = 2 ^ 53 - 1 := by
    have hpos : 0 < 2 * topHalf := mul_pos two_pos topHalf_pos
    rw [largest_eq] at h
    rw [overflowBound_eq] at h'
    rw [roundEven_eq_iff]
    left
    push_cast
    rw [abs_of_nonneg]
    · rw [sub_lt_iff_lt_add, div_lt_iff₀ hpos]
      linarith
    · rw [sub_nonneg, le_div_iff₀ hpos]
      linarith
  rw [rounded_of_largest_le h (h'.trans overflowBound_lt) hround, largest_eq]
  push_cast
  ring

theorem abs_rounded_le_largest {q : Rat} (h : |q| < overflowBound) : |rounded q| ≤ largest := by
  rw [abs_rounded]
  rcases le_total |q| largest with hq | hq
  · exact representable_largest.rounded_le hq
  · exact (rounded_of_between hq h).le

/-- A number is rounded into the range exactly below the overflow bound. -/
theorem abs_rounded_lt_iff {q : Rat} : |rounded q| < 2 ^ (1024 : Int) ↔ |q| < overflowBound := by
  constructor
  · intro h
    by_contra hq
    have hmono := rounded_mono (not_lt.mp hq)
    rw [rounded_overflowBound, ← abs_rounded] at hmono
    exact absurd h (not_lt.mpr hmono)
  · intro h
    exact (abs_rounded_le_largest h).trans_lt (largest_lt_overflowBound.trans overflowBound_lt)

theorem Representable.abs_lt_overflowBound {q : Rat} (h : Representable q)
    (hq : |q| < 2 ^ (1024 : Int)) : |q| < overflowBound := by
  rwa [← abs_rounded_lt_iff, rounded_of_representable h]

end Reckoner.Binary64
