/-
# `Reckoner.Proofs.Binary64.Scientific` — integers with a power of ten

Core reads `n · 10 ^ k` in one of two ways.  A small integer with a small power is exact, and
so is the power, which comes from a table; one product or quotient of doubles rounds once.
Otherwise the product or quotient is taken of integers, and rounded once.  Powers so large or
so small that the integers would be out of hand are told by their size alone.

Each way ends at the double nearest to the number that was written, for every `n` and every
power (`nearest_ofScientific`), and never with a minus.
-/
import Reckoner.Proofs.Binary64.Rounded
import Reckoner.Proofs.Binary64.Sign

namespace Reckoner.Binary64

open Float.Model (Format UnpackedFloat totalExponent)
open Float.Model.UnpackedFloat

/-! ## Sizes that tell the result -/

theorem rounded_eq_zero {q : Rat} (hq : 0 ≤ q) (h : q < 2 ^ (-1075 : Int)) : rounded q = 0 := by
  rcases hq.eq_or_lt with rfl | hpos
  · exact rounded_zero
  have hunit : unitExponent q = -1074 := by
    refine unitExponent_eq le_rfl ?_ (Or.inr rfl) hpos.ne'
    rw [abs_of_pos hpos]
    exact h.trans_le (zpow_le_zpow_right₀ one_le_two (by norm_num))
  have hhalf : measure q < 1 / 2 := by
    have hsplit : (2 : Rat) ^ (-1074 : Int) = 2 * 2 ^ (-1075 : Int) := by
      rw [← zpow_one_add₀ two_ne_zero]
      rfl
    rw [measure, hunit, hsplit, div_lt_iff₀ (by positivity)]
    linarith
  have hmeasure : 0 ≤ measure q := div_nonneg hq (by positivity)
  have hround : roundEven (measure q) = 0 := by
    rw [roundEven_eq_iff, Int.cast_zero, sub_zero, abs_of_nonneg hmeasure]
    exact Or.inl hhalf
  rw [rounded, hround, Int.cast_zero, zero_mul]

theorem two_pow_le_ten_pow (k : Nat) : (2 : Rat) ^ (3 * k) ≤ 10 ^ k := by
  rw [pow_mul]
  exact pow_le_pow_left₀ (by norm_num) (by norm_num) k

theorem overflowBound_le_ten_pow {n k : Nat} (hn : 0 < n) (hk : 2048 < k) :
    overflowBound ≤ (n : Rat) * 10 ^ k := by
  have hone : (1 : Rat) ≤ n := by exact_mod_cast hn
  calc overflowBound ≤ 2 ^ (1024 : Int) := overflowBound_lt.le
    _ ≤ 2 ^ ((3 * k : Nat) : Int) := zpow_le_zpow_right₀ one_le_two (by omega)
    _ = 2 ^ (3 * k) := zpow_natCast _ _
    _ ≤ 10 ^ k := two_pow_le_ten_pow k
    _ ≤ n * 10 ^ k := le_mul_of_one_le_left (by positivity) hone

theorem div_ten_pow_lt {n k : Nat} (hk : 2048 + n.log2 < k) :
    (n : Rat) / 10 ^ k < 2 ^ (-1075 : Int) := by
  have hn : (n : Rat) < 2 ^ (n.log2 + 1) := by exact_mod_cast Nat.lt_log2_self
  rw [div_lt_iff₀ (by positivity)]
  calc (n : Rat) < 2 ^ ((n.log2 + 1 : Nat) : Int) := by rwa [zpow_natCast]
    _ ≤ 2 ^ (-1075 + (3 * k : Nat) : Int) := zpow_le_zpow_right₀ one_le_two (by omega)
    _ = 2 ^ (-1075 : Int) * 2 ^ (3 * k) := by rw [zpow_add₀ two_ne_zero, zpow_natCast]
    _ ≤ 2 ^ (-1075 : Int) * 10 ^ k := by
        gcongr
        exact two_pow_le_ten_pow k

/-! ## Large integers or powers -/

/-- A product of integers has enough bits to be rounded as it is. -/
theorem nearest_ofScientific_product {n : Nat} (hn : 0 < n) {k : Nat} (hk : k ≤ 2048) :
    Nearest (.ofModel (.pack (UnpackedFloat.ofScientific .binary64 n k))) (n * 10 ^ k) := by
  have hpower : (2 : Int) ^ Format.binary64.exponentBits = 2048 := rfl
  have hbits : Format.binary64.mantissaBits = 53 := rfl
  have hpos : 0 < n * 10 ^ k := by positivity
  have htarget : -53 ≤
      Format.targetExponent .binary64 (totalExponent (n * 10 ^ k * 2 ^ 53) (-53)) := by
    rw [targetExponent_eq, log2_mul_two_pow hpos]
    omega
  have hnearest := nearest_roundWithAccuracy .positive (reads_exact (n * 10 ^ k * 2 ^ 53))
    (by positivity) htarget
  have hvalue : factor .positive * (((n * 10 ^ k * 2 ^ 53 : Nat) : Rat) * 2 ^ (-53 : Int)) =
      n * 10 ^ k := by
    rw [factor, one_mul]
    push_cast
    rw [mul_assoc, zpow_neg]
    norm_num
  have hproduct : UnpackedFloat.ofScientific .binary64 n k =
      roundWithAccuracy .binary64 .positive (n * 10 ^ k * 2 ^ 53) (-53) .exact := by
    rw [UnpackedFloat.ofScientific, dif_neg hn.ne', hpower, if_neg (by omega), if_neg (by omega),
      if_pos (by omega)]
    simp only [UnpackedFloat.mul, positive_mul_positive, hbits, Nat.shiftLeft_eq,
      Int.toNat_natCast, mul_right_comm n, add_zero]
    rfl
  rwa [hvalue, ← hproduct] at hnearest

theorem nearest_ofScientific_quotient {n : Nat} (hn : 0 < n) {k : Nat} (hk : 0 < k)
    (hk' : k ≤ 2048 + n.log2) :
    Nearest (.ofModel (.pack (UnpackedFloat.ofScientific .binary64 n (-(k : Int)))))
      (n / 10 ^ k) := by
  have hpower : (2 : Int) ^ Format.binary64.exponentBits = 2048 := rfl
  have hten : 0 < 10 ^ k := by positivity
  have hnearest := nearest_divCore .positive (e := 0) (f := 0) hn hten
  have hvalue : factor .positive * ((n : Rat) * 2 ^ (0 : Int) / ((10 ^ k : Nat) * 2 ^ (0 : Int))) =
      n / 10 ^ k := by
    rw [factor]
    push_cast
    norm_num
  have hquotient : UnpackedFloat.ofScientific .binary64 n (-(k : Int)) =
      roundWithAccuracy .binary64 .positive (divCore .binary64 n 0 (10 ^ k) 0).1
        (divCore .binary64 n 0 (10 ^ k) 0).2.1 (divCore .binary64 n 0 (10 ^ k) 0).2.2 := by
    have hk'' : (- -(k : Int)).toNat = k := by omega
    rw [UnpackedFloat.ofScientific, dif_neg hn.ne', hpower, if_neg (by omega), if_neg (by omega),
      if_neg (by omega)]
    simp only [UnpackedFloat.div, positive_div_positive, hk'']
  rwa [hvalue, ← hquotient] at hnearest

theorem nearest_ofScientific_model (n : Nat) (e : Int) :
    Nearest (.ofModel (.pack (UnpackedFloat.ofScientific .binary64 n e))) (n * 10 ^ e) := by
  have hpower : (2 : Int) ^ Format.binary64.exponentBits = 2048 := rfl
  rcases Nat.eq_zero_or_pos n with rfl | hn
  · rw [UnpackedFloat.ofScientific, dif_pos rfl, Nat.cast_zero, zero_mul]
    exact nearest_of_zero (parts_pack_zero .positive) rounded_zero
  obtain ⟨k, rfl | rfl⟩ := Int.eq_nat_or_neg e
  · rw [zpow_natCast]
    rcases le_or_gt k 2048 with hk | hk
    · exact nearest_ofScientific_product hn hk
    · have hbound := overflowBound_le_ten_pow hn hk
      rw [UnpackedFloat.ofScientific, dif_neg hn.ne', hpower, if_pos (by omega)]
      refine nearest_of_infinity (s := .positive) rfl ?_
      rwa [abs_of_nonneg (by positivity)]
  · rw [zpow_neg, zpow_natCast, ← div_eq_mul_inv]
    rcases Nat.eq_zero_or_pos k with rfl | hpos
    · have hproduct := nearest_ofScientific_product hn (Nat.zero_le 2048)
      simpa using hproduct
    rcases le_or_gt k (2048 + n.log2) with hk | hk
    · exact nearest_ofScientific_quotient hn hpos hk
    · rw [UnpackedFloat.ofScientific, dif_neg hn.ne', hpower, if_neg (by omega), if_pos (by omega)]
      exact nearest_of_zero (parts_pack_zero .positive)
        (rounded_eq_zero (by positivity) (div_ten_pow_lt hk))

/-! ## Small integers and powers -/

theorem toUInt64_toFloat_spec {n : Nat} (hn : n < 2 ^ 53) :
    n.toUInt64.toFloat.isFinite = true ∧ toRat n.toUInt64.toFloat = n := by
  have hsize : n.toUInt64.toNat = n := by
    rw [Nat.toUInt64_eq, UInt64.toNat_ofNat_of_lt']
    exact hn.trans (by decide)
  have hconverted : Nearest n.toUInt64.toFloat n := by
    have hnearest := nearest_normalize (n.toUInt64.toNat : Int) 0
    have hcast : (n.toUInt64.toNat : Rat) = n := by rw [hsize]
    rwa [zpow_zero, mul_one, Int.cast_natCast, hcast] at hnearest
  have hrepresentable : Representable n :=
    ⟨n, 0, by norm_num, by rw [Nat.abs_cast]; exact_mod_cast hn.le, by simp⟩
  have hrange : |(n : Rat)| < 2 ^ (1024 : Int) := by
    have hn' : (n : Rat) < 2 ^ (53 : Int) := by exact_mod_cast hn
    rw [Nat.abs_cast]
    exact hn'.trans_le (zpow_le_zpow_right₀ one_le_two (by norm_num))
  have hfinite := hconverted.isFinite_iff.mpr (hrepresentable.abs_lt_overflowBound hrange)
  exact ⟨hfinite, (hconverted.toRat_eq hfinite).trans (rounded_of_representable hrepresentable)⟩

/-- The table has the powers themselves: ten to the twenty-second has 53 bits, but for zeros. -/
theorem powerOfTen_spec : ∀ k : Fin 23,
    Float.exactlyRepresentablePowersOfTen[k].isFinite = true ∧
      toRat Float.exactlyRepresentablePowersOfTen[k] = 10 ^ (k : Nat) := by
  decide +kernel

/-! ## All of them -/

/-- The power of ten that core is told by a sign and a natural number. -/
def signedPower (negative : Bool) (k : Nat) : Int := if negative then -k else k

/-- **Reading rounds once.**  The double is the one nearest to the number that was written. -/
theorem nearest_ofScientific (n : Nat) (negative : Bool) (k : Nat) :
    Nearest (Float.ofScientific n negative k) (n * 10 ^ signedPower negative k) := by
  by_cases h : n < 2 ^ 53 ∧ k ≤ 22
  · obtain ⟨hinteger, hinteger'⟩ := toUInt64_toFloat_spec h.1
    obtain ⟨hpower, hpower'⟩ := powerOfTen_spec ⟨k, by omega⟩
    cases negative with
    | false =>
        have hnearest := nearest_mul hinteger hpower
        rw [hinteger', hpower', ← zpow_natCast] at hnearest
        rw [Float.ofScientific, dif_pos h]
        exact hnearest
    | true =>
        have hne : toRat Float.exactlyRepresentablePowersOfTen[(⟨k, by omega⟩ : Fin 23)] ≠ 0 := by
          rw [hpower']
          positivity
        have hnearest := nearest_div hinteger hpower hne
        rw [hinteger', hpower', div_eq_mul_inv, ← zpow_natCast, ← zpow_neg] at hnearest
        rw [Float.ofScientific, dif_pos h]
        exact hnearest
  · rw [Float.ofScientific, dif_neg h]
    cases negative with
    | false => exact nearest_ofScientific_model n k
    | true =>
        have hnearest := nearest_ofScientific_model n (Int.negOfNat k)
        rwa [Int.negOfNat_eq] at hnearest

/-! ## The sign -/

theorem unsigned_powerOfTen : ∀ k : Fin 23,
    Unsigned (parts Float.exactlyRepresentablePowersOfTen[k]) := by
  have h : ∀ k : Fin 23, Float.exactlyRepresentablePowersOfTen[k].toBits.toNat < 2 ^ 63 := by
    decide
  exact fun k => (toBits_lt_iff _).mp (h k)

theorem unsigned_ofScientific_model (n : Nat) (e : Int) :
    Unsigned (UnpackedFloat.ofScientific .binary64 n e) := by
  rw [UnpackedFloat.ofScientific]
  split
  · rfl
  · split
    · rfl
    · split
      · rfl
      · split
        · exact unsigned_mul rfl rfl
        · exact unsigned_div rfl rfl

theorem unsigned_ofScientific (n : Nat) (negative : Bool) (k : Nat) :
    Unsigned (parts (.ofScientific n negative k)) := by
  rw [Float.ofScientific]
  split
  · rename_i h
    have hn : Unsigned (parts n.toUInt64.toFloat) := unsigned_pack (unsigned_ofNat _)
    have hk := unsigned_powerOfTen ⟨k, by omega⟩
    split
    · exact unsigned_pack (unsigned_div hn hk)
    · exact unsigned_pack (unsigned_mul hn hk)
  · exact unsigned_pack (unsigned_ofScientific_model _ _)

theorem unsigned_floatOfNat (n : Nat) : Unsigned (parts (Float.ofNat n)) :=
  unsigned_ofScientific n false 0

end Reckoner.Binary64
