/-
# `Reckoner.Proofs.Binary64.Integral` — integers and odd integers among the doubles

`isIntegral` looks at the bits behind the point, `isOdd` at the remainder on division
by two.  Neither looks at a value; both tell the truth about it.
-/
import Reckoner.Binary64.Remainder
import Reckoner.Proofs.Binary64.Exact

namespace Reckoner.Binary64

open Float.Model (UnpackedFloat)
open Float.Model.UnpackedFloat

/-! ## Integers -/

theorem exists_int_neg_iff {q : Rat} : (∃ n : Int, -q = n) ↔ ∃ n : Int, q = n := by
  constructor
  · rintro ⟨n, hn⟩
    exact ⟨-n, by rw [Int.cast_neg, ← hn, neg_neg]⟩
  · rintro ⟨n, hn⟩
    exact ⟨-n, by rw [Int.cast_neg, hn]⟩

theorem exists_int_iff (m : Nat) (e : Int) :
    (∃ n : Int, (m : Rat) * 2 ^ e = n) ↔ 0 ≤ e ∨ m % 2 ^ (-e).toNat = 0 := by
  by_cases he : 0 ≤ e
  · obtain ⟨k, rfl⟩ := Int.eq_ofNat_of_zero_le he
    refine iff_of_true ⟨m * 2 ^ k, ?_⟩ (Or.inl he)
    push_cast
    rfl
  · obtain ⟨k, hk⟩ : ∃ k : Nat, e = -(k : Int) := ⟨(-e).toNat, by omega⟩
    have hk' : (-e).toNat = k := by omega
    rw [or_iff_right he, hk', ← Nat.dvd_iff_mod_eq_zero, hk, zpow_neg, zpow_natCast]
    have hpow : (2 : Rat) ^ k ≠ 0 := by positivity
    constructor
    · rintro ⟨n, hn⟩
      rw [mul_inv_eq_iff_eq_mul₀ hpow] at hn
      have hn : (m : Int) = n * 2 ^ k := by exact_mod_cast hn
      exact Int.natCast_dvd_natCast.mp ⟨n, by rw [hn]; push_cast; ring⟩
    · rintro ⟨n, rfl⟩
      refine ⟨n, ?_⟩
      rw [mul_inv_eq_iff_eq_mul₀ hpow]
      push_cast
      ring

theorem isIntegral_iff {x : Float} (hx : x.isFinite = true) :
    isIntegral x = true ↔ ∃ n : Int, toRat x = n := by
  rcases finite_cases hx with ⟨s, hp⟩ | ⟨s, m, e, hm, hp⟩
  · rw [isIntegral, hp, toRat_of_zero hp]
    exact iff_of_true rfl ⟨0, by simp⟩
  · have hbits : isIntegral x = true ↔ 0 ≤ e ∨ m % 2 ^ (-e).toNat = 0 := by
      rw [isIntegral, hp, Bool.or_eq_true, decide_eq_true_iff, beq_iff_eq]
      rfl
    rw [hbits, ← exists_int_iff]
    cases s with
    | positive => rw [toRat_of_positive hp]
    | negative => rw [toRat_of_negative hp, exists_int_neg_iff]

/-! ## Odd integers -/

theorem parts_two : parts 2.0 = .finite .positive (2 ^ 52) (-51) (by decide) := by
  with_unfolding_all rfl

/-- Division by `2 ^ (j + 1)` leaves half of that behind an odd multiple of `2 ^ j`. -/
theorem mod_two_pow_eq_iff {n j : Nat} :
    n % 2 ^ (j + 1) = 2 ^ j ↔ ∃ k, n = (2 * k + 1) * 2 ^ j := by
  constructor
  · intro h
    refine ⟨n / 2 ^ (j + 1), ?_⟩
    calc n = 2 ^ (j + 1) * (n / 2 ^ (j + 1)) + n % 2 ^ (j + 1) := (Nat.div_add_mod _ _).symm
      _ = (2 * (n / 2 ^ (j + 1)) + 1) * 2 ^ j := by rw [h, pow_succ']; ring
  · rintro ⟨k, rfl⟩
    have hodd : (2 * k + 1) % 2 = 1 := by omega
    rw [pow_succ', Nat.mul_mod_mul_right, hodd, one_mul]

/-- What a significand with an exponent leaves on division by two: both are brought to the
unit `2 ^ (-j)`, in which two is `2 ^ (j + 1)`. -/
theorem truncatedRemainder_two {x : Float} {s : UnpackedFloat.Sign} {m : Nat} {e : Int} {hm : 0 < m}
    (hp : parts x = .finite s m e hm) :
    ∃ n j : Nat, (m : Rat) * 2 ^ e = n / 2 ^ j ∧ (truncatedRemainder x 2.0).isFinite = true ∧
      toRat (truncatedRemainder x 2.0) = (s.apply (n % 2 ^ (j + 1) : Nat) : Int) / 2 ^ j := by
  obtain ⟨-, hlt, hleast, hmost, -⟩ := canonical_of_parts hp
  obtain ⟨j, hj⟩ : ∃ j : Nat, min e (-51) = -(j : Int) := ⟨(-min e (-51)).toNat, by omega⟩
  obtain ⟨k, hk⟩ : ∃ k : Nat, e + j = k := ⟨(e + j).toNat, by omega⟩
  have hshift : (e - -(j : Int)).toNat = k := by omega
  have hshift' : (-51 - -(j : Int)).toNat = j - 51 := by omega
  have hdivisor : 2 ^ 52 * 2 ^ (j - 51) = 2 ^ (j + 1) := by
    rw [← pow_add]
    congr 1
    omega
  have hr : truncatedRemainder x 2.0 = ofParts s (m * 2 ^ k % 2 ^ (j + 1)) (-j) := by
    simp only [truncatedRemainder, hp, parts_two, hj, hshift, hshift', Nat.shiftLeft_eq, hdivisor]
  have hrest : m * 2 ^ k % 2 ^ (j + 1) < 2 ^ 53 := by
    rcases Nat.eq_zero_or_pos k with rfl | hpos
    · rw [pow_zero, mul_one]
      exact (Nat.mod_le _ _).trans_lt hlt
    · have hj' : j = 51 := by omega
      rw [hj']
      exact (Nat.mod_lt _ (by positivity)).trans (by norm_num)
  obtain ⟨hfinite, hvalue⟩ := ofParts_exact s hrest (by omega : -1074 ≤ -(j : Int)) (by omega)
  refine ⟨m * 2 ^ k, j, ?_, by rw [hr]; exact hfinite, ?_⟩
  · have he : e = k - j := by omega
    rw [he, zpow_sub₀ (by norm_num), zpow_natCast, zpow_natCast]
    push_cast
    ring
  · rw [hr, hvalue, zpow_neg, zpow_natCast, div_eq_mul_inv]

theorem exists_odd_neg_iff {q : Rat} :
    (∃ n : Int, Odd n ∧ -q = n) ↔ ∃ n : Int, Odd n ∧ q = n := by
  constructor
  · rintro ⟨n, hodd, hn⟩
    exact ⟨-n, hodd.neg, by rw [Int.cast_neg, ← hn, neg_neg]⟩
  · rintro ⟨n, hodd, hn⟩
    exact ⟨-n, hodd.neg, by rw [Int.cast_neg, hn]⟩

theorem exists_odd_div_iff (n j : Nat) :
    (∃ i : Int, Odd i ∧ (n : Rat) / 2 ^ j = i) ↔ n % 2 ^ (j + 1) = 2 ^ j := by
  have hpow : (2 : Rat) ^ j ≠ 0 := by positivity
  rw [mod_two_pow_eq_iff]
  constructor
  · rintro ⟨i, ⟨k, rfl⟩, hi⟩
    rw [div_eq_iff hpow] at hi
    have hi : (n : Int) = (2 * k + 1) * 2 ^ j := by exact_mod_cast hi
    have hk : 0 ≤ k := by
      by_contra hneg
      have : (2 * k + 1) * 2 ^ j < 0 := mul_neg_of_neg_of_pos (by omega) (by positivity)
      omega
    obtain ⟨k, rfl⟩ := Int.eq_ofNat_of_zero_le hk
    exact ⟨k, by exact_mod_cast hi⟩
  · rintro ⟨k, rfl⟩
    refine ⟨2 * k + 1, ⟨k, rfl⟩, ?_⟩
    rw [div_eq_iff hpow]
    push_cast
    ring

theorem signed_eq_one_iff (s : UnpackedFloat.Sign) (r j : Nat) :
    ((s.apply r : Int) : Rat) / 2 ^ j = 1 ∨ ((s.apply r : Int) : Rat) / 2 ^ j = -1 ↔
      r = 2 ^ j := by
  have hpow : (2 : Rat) ^ j ≠ 0 := by positivity
  have hpos : (0 : Int) < 2 ^ j := by positivity
  have hone : ((s.apply r : Int) : Rat) = 1 * 2 ^ j ↔ s.apply r = 2 ^ j := by
    rw [one_mul]
    exact_mod_cast Iff.rfl
  have hneg : ((s.apply r : Int) : Rat) = -1 * 2 ^ j ↔ s.apply r = -2 ^ j := by
    rw [neg_one_mul]
    exact_mod_cast Iff.rfl
  have hcast : r = 2 ^ j ↔ (r : Int) = 2 ^ j := by exact_mod_cast Iff.rfl
  rw [div_eq_iff hpow, div_eq_iff hpow, hone, hneg, hcast]
  cases s <;> simp only [UnpackedFloat.Sign.apply] <;> omega

theorem isOdd_iff_remainder {x : Float} (hr : (truncatedRemainder x 2.0).isFinite = true) :
    isOdd x = true ↔ toRat (truncatedRemainder x 2.0) = 1 ∨
      toRat (truncatedRemainder x 2.0) = -1 := by
  rw [isOdd, Bool.or_eq_true, beq_iff hr isFinite_one, beq_iff hr isFinite_neg_one,
    toRat_one, toRat_neg_one]

theorem isOdd_iff {x : Float} (hx : x.isFinite = true) :
    isOdd x = true ↔ ∃ n : Int, Odd n ∧ toRat x = n := by
  rcases finite_cases hx with ⟨s, hp⟩ | ⟨s, m, e, hm, hp⟩
  · have hr : truncatedRemainder x 2.0 = x := by rw [truncatedRemainder, hp, parts_two]
    rw [isOdd_iff_remainder (by rw [hr]; exact hx), hr, toRat_of_zero hp]
    refine iff_of_false (by norm_num) ?_
    rintro ⟨n, hodd, hn⟩
    obtain rfl : n = 0 := by exact_mod_cast hn.symm
    exact absurd hodd (by decide)
  · obtain ⟨n, j, hvalue, hfinite, hr⟩ := truncatedRemainder_two hp
    rw [isOdd_iff_remainder hfinite, hr, signed_eq_one_iff, ← exists_odd_div_iff, ← hvalue]
    cases s with
    | positive => rw [toRat_of_positive hp]
    | negative => rw [toRat_of_negative hp, exists_odd_neg_iff]

end Reckoner.Binary64
