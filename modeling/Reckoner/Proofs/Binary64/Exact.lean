/-
# `Reckoner.Proofs.Binary64.Exact` — what needs no rounding

Rounding cuts a significand down to 53 bits.  Where only zeros are cut off, or nothing
at all, it changes no value: `Canonical.roundWithAccuracy_eq` for core's rounding, and
`ofParts_exact` for a number put together from its parts.
-/
import Reckoner.Proofs.Binary64.Order

namespace Reckoner.Binary64

open Float.Model (Format UnpackedFloat totalExponent)
open Float.Model.UnpackedFloat

/-! ## Rounding canonical parts -/

theorem targetExponent_binary64 (total : Int) :
    Format.targetExponent .binary64 total = max (total - 53) (-1074) := rfl

theorem targetExponent_eq (m : Nat) (e : Int) :
    Format.targetExponent .binary64 (totalExponent m e) = max (m.log2 + e - 52) (-1074) := by
  rw [targetExponent_binary64, totalExponent]
  congr 1
  omega

theorem log2_mul_two_pow {m : Nat} (hm : 0 < m) (d : Nat) : (m * 2 ^ d).log2 = m.log2 + d := by
  induction d with
  | zero => simp
  | succ d ih =>
      have hne : m * 2 ^ d ≠ 0 := by positivity
      rw [pow_succ, ← mul_assoc, mul_comm, Nat.log2_two_mul hne, ih, add_assoc]

theorem Canonical.log2_bounds {m : Nat} {e : Int} (h : Canonical m e) :
    m.log2 ≤ 52 ∧ (m.log2 = 52 ∨ e = -1074) := by
  have hne : m ≠ 0 := Nat.ne_of_gt h.pos
  have hle : m.log2 < 53 := (Nat.log2_lt hne).mpr h.lt
  refine ⟨by omega, h.full.imp_left fun hm => ?_⟩
  have := (Nat.le_log2 hne).mpr hm
  omega

theorem shiftRight_zeros (m d : Nat) :
    (⟨m * 2 ^ d, false, false⟩ : ExtendedMantissa) >>> d = ⟨m, false, false⟩ := by
  show d.repeat ExtendedMantissa.shiftRightOne ⟨m * 2 ^ d, false, false⟩ = _
  induction d generalizing m with
  | zero => rw [pow_zero, mul_one]; rfl
  | succ d ih =>
      rw [Nat.repeat, pow_succ', ← mul_assoc, ih, ExtendedMantissa.shiftRightOne]
      simp

/-- Zeros behind a canonical significand are cut off, and nothing else. -/
theorem Canonical.shift_eq {m : Nat} {e : Int} (h : Canonical m e) (d : Nat) :
    shiftToTargetExponent .binary64 (m * 2 ^ d) (e - d) .exact = (⟨m, false, false⟩, e) := by
  obtain ⟨hle, hfull⟩ := h.log2_bounds
  have hleast := h.least
  have htarget : Format.targetExponent .binary64 (totalExponent (m * 2 ^ d) (e - d)) = e := by
    rw [targetExponent_eq, log2_mul_two_pow h.pos]
    omega
  have hd : (e - (e - d)).toNat = d := by omega
  simp only [shiftToTargetExponent, htarget, shiftToExponent, hd,
    ExtendedMantissa.ofMantissaAndAccuracy, shiftRight_zeros, sub_add_cancel]

theorem Canonical.roundWithAccuracy_eq {m : Nat} {e : Int} (h : Canonical m e)
    (s : UnpackedFloat.Sign) (d : Nat) :
    roundWithAccuracy .binary64 s (m * 2 ^ d) (e - d) .exact = .finite s m e h.pos := by
  have hagain := h.shift_eq 0
  rw [pow_zero, mul_one, Nat.cast_zero, sub_zero] at hagain
  have hrounded : (⟨m, false, false⟩ : ExtendedMantissa).roundedMantissa = m := rfl
  simp only [roundWithAccuracy, h.shift_eq d, hrounded, hagain, dif_neg (Nat.ne_of_gt h.pos)]

theorem shift_zero (e : Int) :
    ∃ f, shiftToTargetExponent .binary64 0 e .exact = (⟨0, false, false⟩, f) := by
  have hzeros := shiftRight_zeros 0
  simp only [zero_mul] at hzeros
  refine ⟨(shiftToTargetExponent .binary64 0 e .exact).2, Prod.ext ?_ rfl⟩
  simp only [shiftToTargetExponent, shiftToExponent, ExtendedMantissa.ofMantissaAndAccuracy, hzeros]

theorem roundWithAccuracy_zero (s : UnpackedFloat.Sign) (e : Int) :
    roundWithAccuracy .binary64 s 0 e .exact = .zero s := by
  obtain ⟨f, hf⟩ := shift_zero e
  obtain ⟨g, hg⟩ := shift_zero f
  have hrounded : (⟨0, false, false⟩ : ExtendedMantissa).roundedMantissa = 0 := rfl
  simp only [roundWithAccuracy, hf, hrounded, hg, dif_pos]

/-! ## Doubles from their parts -/

/-- Up to 53 bits and a range of exponents, every number is that of canonical parts. -/
theorem exists_canonical {n : Nat} {e : Int} (hpos : 0 < n) (hlt : n < 2 ^ 53)
    (hleast : -1074 ≤ e) (hmost : e ≤ 971) : ∃ k : Nat, Canonical (n * 2 ^ k) (e - k) := by
  have hlog : n.log2 < 53 := (Nat.log2_lt (Nat.ne_of_gt hpos)).mpr hlt
  obtain ⟨k, hk⟩ : ∃ k, k = min (52 - n.log2) (e + 1074).toNat := ⟨_, rfl⟩
  have hne : n * 2 ^ k ≠ 0 := by positivity
  have hlog' : (n * 2 ^ k).log2 = n.log2 + k := log2_mul_two_pow hpos k
  refine ⟨k, Nat.pos_of_ne_zero hne, ?_, by omega, by omega, ?_⟩
  · exact (Nat.log2_lt hne).mp (by omega)
  · by_cases hfull : n.log2 + k = 52
    · exact Or.inl ((Nat.le_log2 hne).mp (by omega))
    · exact Or.inr (by omega)

theorem round_zero (s : UnpackedFloat.Sign) (e : Int) :
    UnpackedFloat.round .binary64 s 0 e = .zero s := by
  simp only [UnpackedFloat.round, decreaseExponent, Nat.zero_shiftLeft, roundWithAccuracy_zero]

theorem Canonical.round_eq {n k : Nat} {e : Int} (h : Canonical (n * 2 ^ k) (e - k))
    (s : UnpackedFloat.Sign) :
    UnpackedFloat.round .binary64 s n e = .finite s (n * 2 ^ k) (e - k) h.pos := by
  have hpos : 0 < n := Nat.pos_of_mul_pos_right h.pos
  obtain ⟨hle, hfull⟩ := h.log2_bounds
  have hleast := h.least
  rw [log2_mul_two_pow hpos] at hle hfull
  have htarget : Format.targetExponent .binary64 (totalExponent n e) = e - k := by
    rw [targetExponent_eq]
    omega
  have hk : (e - (e - k)).toNat = k := by omega
  have hexact := h.roundWithAccuracy_eq s 0
  rw [pow_zero, mul_one, Nat.cast_zero, sub_zero] at hexact
  simp only [UnpackedFloat.round, htarget, decreaseExponent, hk, Nat.shiftLeft_eq, hexact]

theorem ofParts_exact (s : UnpackedFloat.Sign) {n : Nat} {e : Int} (hlt : n < 2 ^ 53)
    (hleast : -1074 ≤ e) (hmost : e ≤ 971) :
    (ofParts s n e).isFinite = true ∧
      toRat (ofParts s n e) = (s.apply n : Int) * (2 : Rat) ^ e := by
  rcases Nat.eq_zero_or_pos n with rfl | hpos
  · have hparts : parts (ofParts s 0 e) = .zero s := by
      rw [ofParts, round_zero, parts_pack_zero]
    refine ⟨?_, ?_⟩
    · show (parts (ofParts s 0 e)).isFinite = true
      rw [hparts]
      rfl
    · rw [toRat_of_zero hparts]
      cases s <;> simp [UnpackedFloat.Sign.apply]
  · obtain ⟨k, hk⟩ := exists_canonical hpos hlt hleast hmost
    have hparts : parts (ofParts s n e) = .finite s (n * 2 ^ k) (e - k) hk.pos := by
      rw [ofParts, hk.round_eq, hk.parts_pack]
    refine ⟨?_, ?_⟩
    · show (parts (ofParts s n e)).isFinite = true
      rw [hparts]
      rfl
    · have hpow : (2 : Rat) ^ e = 2 ^ k * 2 ^ (e - k) := by
        rw [← zpow_natCast, ← zpow_add₀ (by norm_num)]
        congr 1
        omega
      rw [toRat_of_finite hparts, hpow]
      cases s <;> simp only [UnpackedFloat.Sign.apply] <;> push_cast <;> ring

/-! ## Quotients -/

theorem log2_lt_of_mul_eq {m n d j k : Nat} (hpos : 0 < n) (hlt : m < 2 ^ 53)
    (h : n * 2 ^ k = m * 2 ^ j * d) : n.log2 + k < 54 + j + d.log2 := by
  have hne : n * 2 ^ k ≠ 0 := by positivity
  have hd : d < 2 ^ (d.log2 + 1) := Nat.lt_log2_self
  have hm : m * 2 ^ j < 2 ^ 53 * 2 ^ j := Nat.mul_lt_mul_of_pos_right hlt (by positivity)
  rw [← log2_mul_two_pow hpos k, Nat.log2_lt hne, h]
  calc m * 2 ^ j * d < 2 ^ 53 * 2 ^ j * 2 ^ (d.log2 + 1) := Nat.mul_lt_mul'' hm hd
    _ = 2 ^ (54 + j + d.log2) := by
        rw [← pow_add, ← pow_add]
        congr 1
        omega

/-- The quotient of two integers needs no rounding where it is a double, `m · 2 ^ (j - k)`. -/
theorem Canonical.divCore_eq {m : Nat} {e : Int} (h : Canonical m e) {n d j k : Nat} (hn : 0 < n)
    (hd : 0 < d) (hquotient : n * 2 ^ k = m * 2 ^ j * d) (he : (j : Int) - k = e) :
    ∃ i : Nat, divCore .binary64 n 0 d 0 = (m * 2 ^ i, e - i, .exact) := by
  have hlog := log2_lt_of_mul_eq hn h.lt hquotient
  have hleast := h.least
  obtain ⟨t, ht⟩ : ∃ t : Int, t = min (0 - 0) (Format.targetExponent .binary64
    (totalExponent n 0 - totalExponent d 0)) := ⟨_, rfl⟩
  have hte : t ≤ e := by
    rw [ht, targetExponent_binary64, totalExponent, totalExponent]
    omega
  -- the dividend is shifted until the quotient has enough bits, and more than the double has
  obtain ⟨i, hi⟩ : ∃ i : Nat, (i : Int) = e - t := ⟨(e - t).toNat, by omega⟩
  obtain ⟨a, ha⟩ : ∃ a : Nat, (a : Int) = -t := ⟨(-t).toNat, by omega⟩
  have hshift : (0 - 0 - t).toNat = a := by omega
  have hscaled : n * 2 ^ a = m * 2 ^ i * d := by
    have hexponents : j + a = i + k := by omega
    apply Nat.eq_of_mul_eq_mul_right (Nat.two_pow_pos k)
    calc n * 2 ^ a * 2 ^ k = n * 2 ^ k * 2 ^ a := by ring
      _ = m * 2 ^ (j + a) * d := by rw [hquotient]; ring
      _ = m * 2 ^ i * d * 2 ^ k := by rw [hexponents]; ring
  have hexponent : e - i = t := by omega
  refine ⟨i, ?_⟩
  simp only [divCore, ← ht, hshift, Nat.shiftLeft_eq, hscaled, hexponent, Nat.mul_div_cancel _ hd,
    Nat.mul_mod_left, accuracyOfFraction, if_true]

end Reckoner.Binary64
