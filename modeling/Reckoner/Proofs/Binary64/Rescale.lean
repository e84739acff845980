/-
# `Reckoner.Proofs.Binary64.Rescale` — scaling down, up, and down again

A number of 53 bits is divided by an integer, multiplied by it and divided again, with a
rounding every time.  The product need not be the number that one started from, but the
second quotient is the first one (`rounded_rescale`).

Three of these numbers are compared by the units of their last places.  If the quotient is
counted in finer steps than the product, the product is back at the start.  If it is counted
in coarser steps, whatever the product has lost is too little to be seen in the quotient.
The one place where the steps of the quotient change is a power of two, and the product of
that is not rounded at all.
-/
import Reckoner.Proofs.Binary64.Nearest

namespace Reckoner.Binary64

/-! ## Errors -/

theorem abs_sub_rounded_le_half (q : Rat) : |q - rounded q| ≤ 2 ^ unitExponent q / 2 := by
  have hunit : (0 : Rat) < 2 ^ unitExponent q := by positivity
  rw [rounded, abs_sub_multiple]
  calc |measure q - roundEven (measure q)| * 2 ^ unitExponent q
      ≤ 1 / 2 * 2 ^ unitExponent q :=
        mul_le_mul_of_nonneg_right (abs_sub_roundEven_le _) hunit.le
    _ = 2 ^ unitExponent q / 2 := by ring

/-- Above the least binade a rounding error is little, measured by the number itself. -/
theorem abs_sub_rounded_le_mul {q : Rat} (hq : 2 ^ (-1022 : Int) ≤ q) :
    |q - rounded q| ≤ q / 2 ^ 53 := by
  have hpos : 0 < q := lt_of_lt_of_le (by positivity) hq
  have hunit : 2 ^ (unitExponent q + 52) ≤ q := by
    by_cases hu : unitExponent q = -1074
    · rw [hu]
      exact hq
    · have hle := unit_le_abs hpos.ne' hu
      rwa [abs_of_pos hpos] at hle
  have hsplit : (2 : Rat) ^ (unitExponent q + 52) = 2 ^ unitExponent q * 2 ^ 52 := by
    rw [zpow_add₀ two_ne_zero]
    norm_cast
  refine (abs_sub_rounded_le_half q).trans ?_
  rw [le_div_iff₀ (by norm_num)]
  linarith

theorem rounded_of_near {q r : Rat} (hq : 0 < q) (hr : Representable r)
    (h : |q - r| < 2 ^ unitExponent q / 2) : rounded q = r := by
  have hunit : (0 : Rat) < 2 ^ unitExponent q := by positivity
  have hmultiple : ∀ k : Int, r = k * 2 ^ unitExponent q → rounded q = r := by
    rintro k rfl
    have hround : roundEven (measure q) = k := by
      rw [abs_sub_multiple] at h
      refine roundEven_eq_iff.mpr (Or.inl (lt_of_mul_lt_mul_right ?_ hunit.le))
      linarith
    rw [rounded, hround]
  rcases hr.multiple_or_le (unitExponent q) with ⟨k, hk⟩ | ⟨hu, hbelow⟩
  · exact hmultiple k hk
  -- below the binade of `q`, only the power of two at its foot can be as near
  have hfoot := unit_le_abs hq.ne' hu
  rw [abs_of_pos hq] at hfoot
  have hhalf : (2 : Rat) ^ unitExponent q = 2 * 2 ^ (unitExponent q - 1) := by
    rw [← zpow_one_add₀ two_ne_zero]
    congr 1
    omega
  have hsplit : (2 : Rat) ^ (unitExponent q + 52) = 2 ^ 53 * 2 ^ (unitExponent q - 1) := by
    rw [← zpow_natCast, ← zpow_add₀ two_ne_zero]
    congr 1
    push_cast
    omega
  have hless : (0 : Rat) < 2 ^ (unitExponent q - 1) := by positivity
  rw [abs_lt, hhalf] at h
  rw [abs_le, hsplit] at hbelow
  rcases hr.multiple_or_le (unitExponent q - 1) with ⟨k, rfl⟩ | ⟨-, hle⟩
  · have hmore : (2 ^ 53 - 1 : Rat) < k := by
      refine lt_of_mul_lt_mul_right ?_ hless.le
      linarith
    have hk : (2 ^ 53 - 1 : Int) < k ∧ k ≤ 2 ^ 53 :=
      ⟨by exact_mod_cast hmore, by exact_mod_cast le_of_mul_le_mul_right hbelow.2 hless⟩
    obtain rfl : k = 2 ^ 53 := by omega
    refine hmultiple (2 ^ 52) ?_
    rw [hhalf]
    push_cast
    ring
  · rw [abs_le] at hle
    have hlow : (2 : Rat) ^ (unitExponent q - 1 + 52) = 2 ^ 52 * 2 ^ (unitExponent q - 1) := by
      rw [add_comm, zpow_add₀ two_ne_zero]
      norm_cast
    rw [hlow] at hle
    linarith

/-! ## There and back -/

theorem representable_two_zpow_mul {n : Nat} (hn : n ≤ 2 ^ 53) {k : Int} (hk : -1074 ≤ k) :
    Representable (2 ^ k * n) :=
  ⟨n, k, hk, by rw [Nat.abs_cast]; exact_mod_cast hn, by push_cast; ring⟩

/-- Near a rounded number, but below its binade: then it is the power of two at the foot. -/
theorem rounded_eq_foot {q p : Rat} (hq : 0 < q) (hp : 0 < p)
    (hbelow : unitExponent p < unitExponent q)
    (hnear : |p - rounded q| < 2 ^ unitExponent q / 2) :
    rounded q = 2 ^ (unitExponent q + 52) := by
  obtain ⟨e, he⟩ : ∃ e, e = unitExponent q := ⟨_, rfl⟩
  obtain ⟨k, hk⟩ : ∃ k : Int, rounded q = k * 2 ^ e := ⟨_, by rw [he, rounded]⟩
  have hleast := le_unitExponent p
  rw [← he] at hbelow hnear ⊢
  have hunit : (0 : Rat) < 2 ^ e := by positivity
  have hsplit : (2 : Rat) ^ (e + 52) = 2 ^ 52 * 2 ^ e := by
    rw [add_comm, zpow_add₀ two_ne_zero]
    norm_cast
  have hlow : 2 ^ (e + 52) ≤ rounded q := by
    have hfoot := unit_le_abs hq.ne' (by omega)
    rw [← he, abs_of_pos hq] at hfoot
    exact (representable_two_pow (by omega)).le_rounded hfoot
  have hhigh : p < 2 ^ (e + 52) := by
    have hlt := abs_lt_unit p
    rw [abs_of_pos hp] at hlt
    exact hlt.trans_le (zpow_le_zpow_right₀ one_le_two (by omega))
  rw [hk, hsplit] at hlow
  rw [hk, abs_lt] at hnear
  rw [hsplit] at hhigh
  have hless : (k : Rat) < 2 ^ 52 + 1 := by
    refine lt_of_mul_lt_mul_right ?_ hunit.le
    linarith
  have hcount : (2 ^ 52 : Int) ≤ k ∧ k < 2 ^ 52 + 1 :=
    ⟨by exact_mod_cast le_of_mul_le_mul_right hlow hunit, by exact_mod_cast hless⟩
  obtain rfl : k = 2 ^ 52 := by omega
  rw [hk, hsplit, Int.cast_pow, Int.cast_ofNat]

section Rescale

variable {n : Nat} (hn : 0 < n)

include hn

/-- The quotient is counted in finer steps than its product: the product is back at the start. -/
theorem rounded_product_of_fine {q : Rat} (hq : Representable q) (hy : 0 < rounded (q / n))
    (h : (n : Rat) * 2 ^ unitExponent (q / n) < 2 ^ unitExponent (rounded (q / n) * n)) :
    rounded (rounded (q / n) * n) = q := by
  have hncast : (0 : Rat) < n := by exact_mod_cast hn
  refine rounded_of_near (mul_pos hy hncast) hq ?_
  have hscaled : |rounded (q / n) * n - q| = n * |q / n - rounded (q / n)| := by
    rw [← abs_of_pos hncast, ← abs_mul, abs_of_pos hncast, abs_sub_comm, mul_sub,
      mul_div_cancel₀ _ hncast.ne', mul_comm]
  rw [hscaled]
  calc n * |q / n - rounded (q / n)| ≤ n * (2 ^ unitExponent (q / n) / 2) := by
        gcongr
        exact abs_sub_rounded_le_half _
    _ = n * 2 ^ unitExponent (q / n) / 2 := by ring
    _ < 2 ^ unitExponent (rounded (q / n) * n) / 2 := by linarith

/-- It is counted in coarser steps: what the product has lost is not seen in them. -/
theorem abs_sub_lt_of_coarse {y : Rat} {e : Int}
    (h : 2 ^ unitExponent (y * n) < (n : Rat) * 2 ^ e) : |rounded (y * n) / n - y| < 2 ^ e / 2 := by
  have hncast : (0 : Rat) < n := by exact_mod_cast hn
  have hscaled : |rounded (y * n) / n - y| = |y * n - rounded (y * n)| / n := by
    rw [← abs_of_pos hncast, ← abs_div, abs_of_pos hncast, sub_div,
      mul_div_cancel_right₀ _ hncast.ne', abs_sub_comm]
  rw [hscaled, div_lt_iff₀ hncast]
  calc |y * n - rounded (y * n)| ≤ 2 ^ unitExponent (y * n) / 2 := abs_sub_rounded_le_half _
    _ < n * 2 ^ e / 2 := by linarith
    _ = 2 ^ e / 2 * n := by ring

/-- **There and back.**  A quotient by an integer, rounded, is the same after a multiplication and
another division, each rounded. -/
theorem rounded_rescale (hn' : n ≤ 2 ^ 53) {q : Rat} (hq : Representable q) (hpos : 0 < q) :
    rounded (rounded (rounded (q / n) * n) / n) = rounded (q / n) := by
  have hncast : (0 : Rat) < n := by exact_mod_cast hn
  have hqn : 0 < q / n := div_pos hpos hncast
  obtain ⟨y, hy⟩ : ∃ y, y = rounded (q / n) := ⟨_, rfl⟩
  obtain ⟨e, he⟩ : ∃ e, e = unitExponent (q / n) := ⟨_, rfl⟩
  have hunit : (0 : Rat) < 2 ^ e := by positivity
  have hyr : Representable y := hy ▸ representable_rounded _
  rw [← hy]
  by_cases ht : Representable (y * n)
  · rw [rounded_of_representable ht, mul_div_cancel_right₀ _ hncast.ne',
      rounded_of_representable hyr]
  obtain ⟨k, hk, hksize⟩ : ∃ k : Int, y = k * 2 ^ e ∧ |k| ≤ 2 ^ 53 :=
    ⟨_, by rw [hy, he, rounded], abs_roundEven_measure_le _⟩
  have hkpos : 0 < k := by
    have hnonneg : 0 ≤ y := hy ▸ rounded_nonneg hqn.le
    rw [hk, mul_nonneg_iff_of_pos_right hunit] at hnonneg
    refine lt_of_le_of_ne (by exact_mod_cast hnonneg) ?_
    rintro rfl
    refine ht ⟨0, 0, by norm_num, by norm_num, ?_⟩
    rw [hk, Int.cast_zero, zero_mul, zero_mul, zero_mul]
  have hyunit : 2 ^ e ≤ y := by
    rw [hk]
    exact le_mul_of_one_le_left hunit.le (by exact_mod_cast hkpos)
  rcases lt_trichotomy ((n : Rat) * 2 ^ e) (2 ^ unitExponent (y * n)) with hfine | heq | hcoarse
  · rw [hy, he] at hfine
    rw [hy, rounded_product_of_fine hn hq (hy ▸ hunit.trans_le hyunit) hfine]
  · -- in the same steps the product is as good a number as the quotient
    exact absurd ⟨k, unitExponent (y * n), le_unitExponent _, hksize, by rw [← heq, hk]; ring⟩ ht
  · have hnear := abs_sub_lt_of_coarse hn hcoarse
    have hp : 0 < rounded (y * n) / n := by
      rw [abs_lt] at hnear
      linarith
    rcases le_or_gt e (unitExponent (rounded (y * n) / n)) with hsame | hbelow
    · refine rounded_of_near hp hyr (hnear.trans_le ?_)
      gcongr
      norm_num
    · -- the steps change only at a power of two, and its product is not rounded
      rw [he] at hbelow
      rw [hy, he] at hnear
      have hfoot := rounded_eq_foot hqn hp hbelow (hy ▸ hnear)
      refine absurd ?_ ht
      rw [hy, hfoot]
      exact representable_two_zpow_mul hn' (by have := le_unitExponent (q / n); omega)

end Rescale

end Reckoner.Binary64
