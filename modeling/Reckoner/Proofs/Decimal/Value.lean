/-
# `Reckoner.Proofs.Decimal.Value` — the doubles that literals denote

A literal has no sign, and neither has its value (`Literal.toBits_value_lt`).  The value is
the double nearest to the number that the literal denotes, however many digits it has
(`Literal.nearest_value`), and it is finite exactly below the overflow bound.

There is no other restriction: every finite double without a sign is the value of some
literal (`exists_literal`).  A double `m · 2 ^ e` is a quotient of an integer and a power of
ten; written with that power as its exponent, it is read by one exact division.
-/
import Reckoner.Decimal.Literal
import Reckoner.Proofs.Binary64.Scientific
import Reckoner.Proofs.Binary64.TiesToEven
import Reckoner.Proofs.Token.Spelling

namespace Reckoner.Decimal

open Binary64
open Float.Model (Format UnpackedFloat totalExponent)
open Float.Model.UnpackedFloat

/-! ## Signs -/

theorem Literal.toBits_value_lt (l : Literal) : l.value.toBits.toNat < 2 ^ 63 :=
  (toBits_lt_iff _).mpr (unsigned_ofScientific _ _ _)

/-! ## The number that is denoted -/

theorem Literal.exact_nonneg (l : Literal) : 0 ≤ l.exact := by
  rw [exact]
  positivity

theorem Literal.nearest_value (l : Literal) : Nearest l.value l.exact := by
  have hpower : signedPower (l.power < 0) l.power.natAbs = l.power := by
    simp only [signedPower, decide_eq_true_eq]
    split_ifs <;> omega
  have hnearest := nearest_ofScientific l.significand (l.power < 0) l.power.natAbs
  rwa [hpower] at hnearest

theorem Literal.isFinite_value_iff (l : Literal) :
    l.value.isFinite = true ↔ l.exact < overflowBound := by
  rw [l.nearest_value.isFinite_iff, abs_of_nonneg l.exact_nonneg]

theorem Literal.nearestEven_value {l : Literal} (h : l.exact < overflowBound) :
    NearestEven l.value l.exact := by
  have hfinite := l.isFinite_value_iff.mpr h
  exact nearestEven_of_toRat_eq hfinite (l.nearest_value.toRat_eq hfinite)

/-! ## An exact division -/

/-- The double `m · 2 ^ e` as an integer with a power of ten. -/
theorem ofScientific_eq {m : Nat} {e : Int} (h : Canonical m e) {j k : Nat} (hk : 23 ≤ k)
    (hk' : k ≤ 2048) (he : (j : Int) - k = e) :
    Float.ofScientific (m * 2 ^ j * 5 ^ k) true k
      = .ofModel (.pack (.finite .positive m e h.pos)) := by
  have hmpos := h.pos
  have hpos : 0 < m * 2 ^ j * 5 ^ k := by positivity
  have hquotient : m * 2 ^ j * 5 ^ k * 2 ^ k = m * 2 ^ j * 10 ^ k := by
    rw [mul_assoc, ← mul_pow]
    norm_num
  obtain ⟨i, hi⟩ := h.divCore_eq hpos (by positivity) hquotient he
  rw [Float.ofScientific, dif_neg (by omega)]
  show Float.ofModel (.pack (UnpackedFloat.ofScientific .binary64 _ (Int.negOfNat k))) = _
  have hpower : (2 : Int) ^ Format.binary64.exponentBits = 2048 := rfl
  have hneg : Int.negOfNat k = -(k : Int) := Int.negOfNat_eq
  have hk'' : (- -(k : Int)).toNat = k := by omega
  rw [hneg, UnpackedFloat.ofScientific, dif_neg (Nat.ne_of_gt hpos), hpower,
    if_neg (by omega), if_neg (by omega), if_neg (by omega)]
  simp only [hk'', UnpackedFloat.div, hi, positive_div_positive, h.roundWithAccuracy_eq]

/-! ## Literals for doubles -/

def overPowerOfTen (n k : Nat) : Literal :=
  ⟨Nat.toDigits 10 n, [], some ⟨'e', ['-'], Nat.toDigits 10 k⟩⟩

theorem isDigits_toDigits (n : Nat) : IsDigits (Nat.toDigits 10 n) :=
  ⟨Nat.toDigits_ne_nil, fun _ hc => Nat.isDigit_of_mem_toDigits (by decide) (by decide) hc⟩

theorem natOfDigits_toDigits (n : Nat) : natOfDigits (Nat.toDigits 10 n) = n :=
  Nat.ofDigitChars_ten_toDigits

theorem wellFormed_overPowerOfTen (n k : Nat) : (overPowerOfTen n k).WellFormed where
  whole := isDigits_toDigits n
  fraction := by simp [overPowerOfTen]
  exponent := by
    intro x hx
    obtain rfl := Option.some.inj hx
    exact ⟨Or.inl rfl, Or.inr (Or.inr rfl), isDigits_toDigits k⟩

theorem value_overPowerOfTen (n : Nat) {k : Nat} (hk : 0 < k) :
    (overPowerOfTen n k).value = Float.ofScientific n true k := by
  have hsignificand : (overPowerOfTen n k).significand = n := by
    rw [Literal.significand, overPowerOfTen, List.append_nil, natOfDigits_toDigits]
  have hpower : (overPowerOfTen n k).power = -(k : Int) := by
    simp [Literal.power, overPowerOfTen, Exponent.value, natOfDigits_toDigits]
  have hneg : -(k : Int) < 0 := by omega
  rw [Literal.value, hsignificand, hpower, decide_eq_true hneg, Int.natAbs_neg, Int.natAbs_natCast]

theorem exists_literal {x : Float} (hx : x.isFinite = true) (hsign : x.toBits.toNat < 2 ^ 63) :
    ∃ l : Literal, l.WellFormed ∧ l.value = x := by
  rw [toBits_lt_iff] at hsign
  rcases finite_cases hx with ⟨s, hp⟩ | ⟨s, m, e, hm, hp⟩
  · obtain rfl : s = .positive := by rwa [hp] at hsign
    have hzero : Float.ofScientific 0 true 23 = x := by
      apply parts_injective
      rw [hp]
      with_unfolding_all rfl
    exact ⟨overPowerOfTen 0 23, wellFormed_overPowerOfTen 0 23,
      (value_overPowerOfTen 0 (by decide)).trans hzero⟩
  · obtain rfl : s = .positive := by rwa [hp] at hsign
    have hc := canonical_of_parts hp
    have hleast := hc.least
    obtain ⟨k, hk⟩ : ∃ k : Nat, k = 23 + (-e).toNat := ⟨_, rfl⟩
    obtain ⟨j, hj⟩ : ∃ j : Nat, (j : Int) - k = e := ⟨(e + k).toNat, by omega⟩
    refine ⟨overPowerOfTen (m * 2 ^ j * 5 ^ k) k, wellFormed_overPowerOfTen _ _, ?_⟩
    rw [value_overPowerOfTen _ (by omega), ofScientific_eq hc (by omega) (by omega) hj, ← hp,
      pack_parts]

end Reckoner.Decimal
