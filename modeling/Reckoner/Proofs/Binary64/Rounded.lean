/-
# `Reckoner.Proofs.Binary64.Rounded` — every operation is rounded once

Core computes a sum, a product or a quotient of doubles in three steps: the exact
result as a significand with an exponent, or as much of it as is needed to tell how it
rounds; a shift that brings it to 53 bits and keeps, of what is cut off, its first bit
and whether there is more; and the packing, which makes an infinity of what is too
large.  `Reads` says what the two bits tell of the number that was cut.

The outcome is the one that was wanted: the double is nearest to the exact result
(`Nearest`).  So it is finite exactly if that lies within the overflow bound, and then
its value is the exact result, rounded.
-/
import Reckoner.Proofs.Binary64.Exact
import Reckoner.Proofs.Binary64.Nearest

namespace Reckoner.Binary64

open Float.Model (Format UnpackedFloat totalExponent)
open Float.Model.UnpackedFloat

/-! ## What has been cut off -/

/-- A number of which a significand and two bits are left: the first bit behind the significand,
and whether anything stands behind that. -/
def Reads (em : ExtendedMantissa) (x : Rat) : Prop :=
  ∃ rest : Rat, 0 ≤ rest ∧ rest < 1 / 2 ∧ (em.stickyBit = true ↔ 0 < rest) ∧
    x = em.mantissa + (if em.roundBit then 1 / 2 else 0) + rest

theorem reads_exact (m : Nat) : Reads (.ofMantissaAndAccuracy m .exact) m :=
  ⟨0, le_rfl, by norm_num, by simp [ExtendedMantissa.ofMantissaAndAccuracy], by
    simp [ExtendedMantissa.ofMantissaAndAccuracy]⟩

/-- The bits tell how a fraction compares with one half. -/
theorem reads_fraction (m : Nat) {n d : Nat} (h : n < d) :
    Reads (.ofMantissaAndAccuracy m (accuracyOfFraction n d)) (m + n / d) := by
  have hd : (0 : Rat) < d := by exact_mod_cast (Nat.zero_le n).trans_lt h
  have hfraction : (n / d : Rat) < 1 := by
    rw [div_lt_one hd]
    exact_mod_cast h
  by_cases hn : n = 0
  · rw [hn, accuracyOfFraction, if_pos rfl, Nat.cast_zero, zero_div, add_zero]
    exact reads_exact m
  · have hpos : (0 : Rat) < n / d := div_pos (by exact_mod_cast Nat.pos_of_ne_zero hn) hd
    rw [accuracyOfFraction, if_neg hn]
    rcases hcompare : compare (2 * n) d with _ | _ | _
    · have hlt : (n / d : Rat) < 1 / 2 := by
        have : (2 * n : Rat) < d := by exact_mod_cast compare_lt_iff_lt.mp hcompare
        rw [div_lt_iff₀ hd]
        linarith
      exact ⟨n / d, hpos.le, hlt, by simp [ExtendedMantissa.ofMantissaAndAccuracy, hpos],
        by simp [ExtendedMantissa.ofMantissaAndAccuracy]⟩
    · have heq : (n / d : Rat) = 1 / 2 := by
        have : (2 * n : Rat) = d := by exact_mod_cast compare_eq_iff_eq.mp hcompare
        rw [div_eq_iff hd.ne']
        linarith
      exact ⟨0, le_rfl, by norm_num, by simp [ExtendedMantissa.ofMantissaAndAccuracy],
        by simp [ExtendedMantissa.ofMantissaAndAccuracy, heq]⟩
    · have hgt : (1 / 2 : Rat) < n / d := by
        have : (d : Rat) < 2 * n := by exact_mod_cast compare_gt_iff_gt.mp hcompare
        rw [lt_div_iff₀ hd]
        linarith
      exact ⟨n / d - 1 / 2, by linarith, by linarith,
        by simp [ExtendedMantissa.ofMantissaAndAccuracy]; linarith,
        by simp [ExtendedMantissa.ofMantissaAndAccuracy]⟩

section Reads

variable {em : ExtendedMantissa} {x : Rat} (h : Reads em x)

include h

theorem Reads.mantissa_le : (em.mantissa : Rat) ≤ x := by
  obtain ⟨rest, hrest, -, -, rfl⟩ := h
  have : (0 : Rat) ≤ if em.roundBit then 1 / 2 else 0 := by split <;> norm_num
  linarith

theorem Reads.lt_mantissa_add_one : x < em.mantissa + 1 := by
  obtain ⟨rest, -, hrest, -, rfl⟩ := h
  have : (if em.roundBit then 1 / 2 else 0 : Rat) ≤ 1 / 2 := by split <;> norm_num
  linarith

theorem Reads.shiftRightOne : Reads em.shiftRightOne (x / 2) := by
  obtain ⟨rest, hrest, hrest', hsticky, rfl⟩ := h
  have hbits : (em.mantissa : Rat) = 2 * (em.mantissa / 2 : Nat) + (em.mantissa % 2 : Nat) := by
    exact_mod_cast (Nat.div_add_mod _ 2).symm
  have hround : (em.shiftRightOne.roundBit = true) ↔ em.mantissa % 2 = 1 := by
    simp [ExtendedMantissa.shiftRightOne]
  have hlast : ((em.mantissa % 2 : Nat) : Rat) / 2 =
      if em.shiftRightOne.roundBit then 1 / 2 else 0 := by
    rcases Nat.mod_two_eq_zero_or_one em.mantissa with heven | hodd
    · rw [if_neg (by rw [hround]; omega), heven]
      norm_num
    · rw [if_pos (hround.mpr hodd), hodd]
      norm_num
  refine ⟨(if em.roundBit then 1 / 2 else 0) / 2 + rest / 2, ?_, ?_, ?_, ?_⟩
  · split <;> linarith
  · split <;> linarith
  · simp only [ExtendedMantissa.shiftRightOne, Bool.or_eq_true, hsticky]
    cases em.roundBit with
    | false => simp
    | true =>
        refine iff_of_true (Or.inl rfl) ?_
        rw [if_pos rfl]
        linarith
  · rw [← hlast, hbits]
    show _ = ((em.mantissa / 2 : Nat) : Rat) + _ + _
    ring

theorem Reads.shiftRight (n : Nat) : Reads (em >>> n) (x / 2 ^ n) := by
  show Reads (n.repeat ExtendedMantissa.shiftRightOne em) _
  induction n with
  | zero => rwa [pow_zero, div_one]
  | succ n ih =>
      rw [Nat.repeat, pow_succ, ← div_div]
      exact ih.shiftRightOne

/-- The two bits are all that rounding needs to know. -/
theorem Reads.roundedMantissa : (em.roundedMantissa : Int) = roundEven x := by
  obtain ⟨rest, hrest, hrest', hsticky, rfl⟩ := h
  obtain ⟨m, round, sticky⟩ := em
  symm
  rw [roundEven_eq_iff]
  cases round <;> cases sticky
  case false.false =>
    have hzero : rest = 0 := le_antisymm (not_lt.mp fun hpos => nomatch hsticky.mpr hpos) hrest
    left
    simp [ExtendedMantissa.roundedMantissa, ExtendedMantissa.accuracy, Accuracy.roundToNearestEven,
      hzero]
  case false.true =>
    left
    simp [ExtendedMantissa.roundedMantissa, ExtendedMantissa.accuracy, Accuracy.roundToNearestEven,
      abs_of_nonneg hrest]
    linarith
  case true.false =>
    have hzero : rest = 0 := le_antisymm (not_lt.mp fun hpos => nomatch hsticky.mpr hpos) hrest
    have hrounded : (⟨m, true, false⟩ : ExtendedMantissa).roundedMantissa = m + m % 2 := rfl
    rw [hrounded, hzero]
    right
    rcases Nat.mod_two_eq_zero_or_one m with heven | hodd
    · rw [heven]
      exact ⟨by norm_num, by exact_mod_cast Nat.even_iff.mpr heven⟩
    · rw [hodd]
      refine ⟨?_, by exact_mod_cast Nat.even_add_one.mpr (Nat.not_even_iff.mpr hodd)⟩
      push_cast
      rw [show (m : Rat) + (if true then 1 / 2 else 0) + 0 - (m + 1) = -(1 / 2) by norm_num,
        abs_neg, abs_of_pos (by norm_num)]
  case true.true =>
    left
    have hpos : 0 < rest := hsticky.mp rfl
    simp [ExtendedMantissa.roundedMantissa, ExtendedMantissa.accuracy, Accuracy.roundToNearestEven]
    rw [abs_of_neg] <;> linarith

end Reads

/-! ## Rounding a significand -/

theorem lt_two_pow_log2_succ (m : Nat) : (m : Rat) + 1 ≤ 2 ^ (m.log2 + 1 : Int) := by
  have h : m + 1 ≤ 2 ^ (m.log2 + 1) := Nat.lt_log2_self
  exact_mod_cast h

theorem two_pow_log2_le {m : Nat} (hm : m ≠ 0) : (2 : Rat) ^ (m.log2 : Int) ≤ m := by
  have h : 2 ^ m.log2 ≤ m := Nat.log2_self_le hm
  exact_mod_cast h

section Round

variable {m : Nat} {e : Int} {a : Accuracy} {x : Rat}

theorem unitExponent_of_reads (hx : Reads (.ofMantissaAndAccuracy m a) x) (hpos : 0 < x)
    (he : e ≤ Format.targetExponent .binary64 (totalExponent m e)) :
    unitExponent (x * 2 ^ e) = Format.targetExponent .binary64 (totalExponent m e) := by
  have hm : (ExtendedMantissa.ofMantissaAndAccuracy m a).mantissa = m := by
    cases a with
    | exact => rfl
    | inexact o => cases o <;> rfl
  have hle := hx.mantissa_le
  have hlt := hx.lt_mantissa_add_one
  rw [hm] at hle hlt
  have hvalue : |x * 2 ^ e| = x * 2 ^ e := abs_of_pos (by positivity)
  rw [targetExponent_eq] at he ⊢
  refine unitExponent_eq (le_max_right _ _) ?_ ?_ (by positivity)
  · rw [hvalue]
    calc x * 2 ^ e < 2 ^ (m.log2 + 1 : Int) * 2 ^ e := by
          gcongr
          exact hlt.trans_le (lt_two_pow_log2_succ m)
      _ = 2 ^ (m.log2 + 1 + e : Int) := (zpow_add₀ two_ne_zero (m.log2 + 1 : Int) e).symm
      _ ≤ 2 ^ (max (m.log2 + e - 52 : Int) (-1074) + 53) := by
          apply zpow_le_zpow_right₀ (by norm_num)
          omega
  · by_cases hleast : max (m.log2 + e - 52 : Int) (-1074) = -1074
    · exact Or.inr hleast
    · left
      have hne : m ≠ 0 := by
        rintro rfl
        rw [Nat.log2_zero] at he hleast
        omega
      rw [hvalue]
      calc (2 : Rat) ^ (max (m.log2 + e - 52 : Int) (-1074) + 52) ≤ 2 ^ (m.log2 + e : Int) := by
            apply zpow_le_zpow_right₀ (by norm_num)
            omega
        _ = 2 ^ (m.log2 : Int) * 2 ^ e := zpow_add₀ two_ne_zero _ _
        _ ≤ x * 2 ^ e := by
            gcongr
            exact (two_pow_log2_le hne).trans hle

theorem shift_of_lt {n : Nat} {k : Int} (hn : n < 2 ^ 53) (hk : -1074 ≤ k) :
    shiftToTargetExponent .binary64 n k .exact = (⟨n, false, false⟩, k) := by
  have hlog : n.log2 < 53 := by
    rcases Nat.eq_zero_or_pos n with rfl | hpos
    · rw [Nat.log2_zero]
      norm_num
    · exact (Nat.log2_lt hpos.ne').mpr hn
  have hshift : (Format.targetExponent .binary64 (totalExponent n k) - k).toNat = 0 := by
    rw [targetExponent_eq]
    omega
  simp only [shiftToTargetExponent, shiftToExponent, hshift]
  simp [ExtendedMantissa.ofMantissaAndAccuracy, HShiftRight.hShiftRight, Nat.repeat]

/-- A significand that was rounded up to the next power of two loses its last bit, a zero. -/
theorem shift_of_carry {k : Int} (hk : -1074 ≤ k) :
    shiftToTargetExponent .binary64 (2 ^ 53) k .exact = (⟨2 ^ 52, false, false⟩, k + 1) := by
  have hshift : (Format.targetExponent .binary64 (totalExponent (2 ^ 53) k) - k).toNat = 1 := by
    rw [targetExponent_eq, Nat.log2_two_pow]
    omega
  have hzeros := shiftRight_zeros (2 ^ 52) 1
  simp only [shiftToTargetExponent, shiftToExponent, hshift,
    ExtendedMantissa.ofMantissaAndAccuracy]
  rw [show (2 : Nat) ^ 53 = 2 ^ 52 * 2 ^ 1 by norm_num, hzeros]
  rfl

/-- What rounding gives, of a number `x · 2 ^ e` of which enough bits are left: a zero, or the
significand and the exponent of the rounded number.  The exponent may exceed the range. -/
theorem roundWithAccuracy_cases (s : UnpackedFloat.Sign)
    (hx : Reads (.ofMantissaAndAccuracy m a) x) (hpos : 0 < x)
    (he : e ≤ Format.targetExponent .binary64 (totalExponent m e)) :
    (rounded (x * 2 ^ e) = 0 ∧ roundWithAccuracy .binary64 s m e a = .zero s) ∨
    ∃ (n : Nat) (k : Int) (hn : 0 < n), n < 2 ^ 53 ∧ -1074 ≤ k ∧ (2 ^ 52 ≤ n ∨ k = -1074) ∧
      rounded (x * 2 ^ e) = n * 2 ^ k ∧
      roundWithAccuracy .binary64 s m e a = .finite s n k hn := by
  have hunit := unitExponent_of_reads hx hpos he
  have hleast := le_unitExponent (x * 2 ^ e)
  have hvalue : 0 < x * 2 ^ e := by positivity
  -- the first shift
  obtain ⟨d, hd⟩ := Int.le.dest he
  have hmeasure : measure (x * 2 ^ e) = x / 2 ^ d := by
    rw [measure, hunit, ← hd, zpow_add₀ (by norm_num), zpow_natCast, mul_comm x,
      mul_div_mul_left _ _ (by positivity)]
  have hfirst : shiftToTargetExponent .binary64 m e a =
      (ExtendedMantissa.ofMantissaAndAccuracy m a >>> d, unitExponent (x * 2 ^ e)) := by
    have hshift : (Format.targetExponent .binary64 (totalExponent m e) - e).toNat = d := by omega
    simp only [shiftToTargetExponent, shiftToExponent, hshift, hunit, hd]
  obtain ⟨n, hn⟩ : ∃ n, n = (ExtendedMantissa.ofMantissaAndAccuracy m a >>> d).roundedMantissa :=
    ⟨_, rfl⟩
  have hround : (n : Int) = roundEven (measure (x * 2 ^ e)) := by
    rw [hn, hmeasure]
    exact (hx.shiftRight d).roundedMantissa
  have hrounded : rounded (x * 2 ^ e) = n * 2 ^ unitExponent (x * 2 ^ e) := by
    rw [rounded, ← hround, Int.cast_natCast]
  have hupper : n ≤ 2 ^ 53 := by
    have hle := (le_abs_self _).trans (abs_roundEven_measure_le (x * 2 ^ e))
    rw [← hround] at hle
    exact_mod_cast hle
  have hlower : 2 ^ 52 ≤ n ∨ unitExponent (x * 2 ^ e) = -1074 := by
    by_cases hu : unitExponent (x * 2 ^ e) = -1074
    · exact Or.inr hu
    · left
      have hle := le_roundEven_measure hvalue hu
      rw [← hround] at hle
      exact_mod_cast hle
  generalize unitExponent (x * 2 ^ e) = u at *
  -- the second shift, after a carry
  simp only [roundWithAccuracy, hfirst, ← hn]
  rcases hupper.lt_or_eq with hlt | rfl
  · simp only [shift_of_lt hlt hleast]
    by_cases hzero : n = 0
    · left
      refine ⟨by rw [hrounded, hzero, Nat.cast_zero, zero_mul], dif_pos hzero⟩
    · exact Or.inr ⟨n, u, Nat.pos_of_ne_zero hzero, hlt, hleast, hlower, hrounded, dif_neg hzero⟩
  · simp only [shift_of_carry hleast]
    refine Or.inr ⟨2 ^ 52, u + 1, by norm_num, by norm_num, by omega, Or.inl le_rfl, ?_, ?_⟩
    · rw [hrounded, zpow_add_one₀ (by norm_num)]
      push_cast
      ring
    · exact dif_neg (by norm_num)

end Round

/-! ## The nearest double -/

/-- `z` is the double nearest to `q`, or an infinity if that is out of the range. -/
structure Nearest (z : Float) (q : Rat) : Prop where
  isFinite_iff : z.isFinite = true ↔ |q| < overflowBound
  toRat_eq : z.isFinite = true → toRat z = rounded q
  isNaN_eq : z.isNaN = false

def factor : UnpackedFloat.Sign → Rat
  | .positive => 1
  | .negative => -1

theorem abs_factor (s : UnpackedFloat.Sign) : |factor s| = 1 := by
  cases s <;> simp [factor]

theorem cast_apply (s : UnpackedFloat.Sign) (m : Nat) :
    ((s.apply m : Int) : Rat) = factor s * m := by
  cases s <;> simp [UnpackedFloat.Sign.apply, factor]

theorem factor_neg (s : UnpackedFloat.Sign) : factor (-s) = -factor s := by
  cases s with
  | positive => rfl
  | negative => exact (neg_neg 1).symm

theorem factor_mul (s r : UnpackedFloat.Sign) : factor (s * r) = factor s * factor r := by
  cases s <;> cases r
  · show (1 : Rat) = -1 * -1
    norm_num
  · show (-1 : Rat) = -1 * 1
    norm_num
  · show (-1 : Rat) = 1 * -1
    norm_num
  · show (1 : Rat) = 1 * 1
    norm_num

theorem factor_div (s r : UnpackedFloat.Sign) : factor (s / r) = factor s / factor r := by
  cases s <;> cases r
  · show (1 : Rat) = -1 / -1
    norm_num
  · show (-1 : Rat) = -1 / 1
    norm_num
  · show (-1 : Rat) = 1 / -1
    norm_num
  · show (1 : Rat) = 1 / 1
    norm_num

theorem rounded_factor (s : UnpackedFloat.Sign) (q : Rat) :
    rounded (factor s * q) = factor s * rounded q := by
  cases s with
  | positive => rw [factor, one_mul, one_mul]
  | negative => rw [factor, neg_one_mul, neg_one_mul, rounded_neg]

theorem toRat_of_parts {x : Float} {s : UnpackedFloat.Sign} {m : Nat} {e : Int} {hm : 0 < m}
    (hx : parts x = .finite s m e hm) : toRat x = factor s * (m * 2 ^ e) := by
  rw [toRat_of_finite hx, cast_apply, mul_assoc]

theorem exists_zero_of_toRat {x : Float} (hx : x.isFinite = true) (h : toRat x = 0) :
    ∃ s, parts x = .zero s := by
  rcases finite_cases hx with hzero | ⟨s, m, e, hm, hp⟩
  · exact hzero
  · have habs : |toRat x| = m * 2 ^ e := by
      rw [toRat_of_parts hp, abs_mul, abs_factor, one_mul, abs_of_pos (magnitude_pos hm e)]
    rw [h, abs_zero] at habs
    exact absurd habs.symm (magnitude_pos hm e).ne'

theorem parts_pack_infinity (s : UnpackedFloat.Sign) {m : Nat} {e : Int} (hm : 0 < m)
    (he : 971 < e) : parts (.ofModel (.pack (.finite s m e hm))) = .infinity s := by
  have hbias : (Format.exponentBias .binary64 : Int) = 1023 := rfl
  have hbits : (Format.binary64.mantissaBitsWithoutImplicit : Int) = 52 := rfl
  show unpack .binary64 (pack .binary64 (.finite s m e hm)) = _
  rw [pack, hbias, hbits, if_pos (by show 2048 ≤ _; omega)]
  cases s <;> rfl

theorem nearest_of_zero {z : Float} {s : UnpackedFloat.Sign} (hz : parts z = .zero s) {q : Rat}
    (hq : rounded q = 0) : Nearest z q := by
  refine ⟨iff_of_true ?_ (abs_rounded_lt_iff.mp ?_), fun _ => ?_, ?_⟩
  · show (parts z).isFinite = true
    rw [hz]
    rfl
  · rw [hq, abs_zero]
    exact zpow_pos two_pos _
  · rw [hq, toRat_of_zero hz]
  · show (parts z).isNaN = false
    rw [hz]
    rfl

theorem nearest_of_infinity {z : Float} {s : UnpackedFloat.Sign} (hz : parts z = .infinity s)
    {q : Rat} (hq : overflowBound ≤ |q|) : Nearest z q := by
  have hinfinite : ¬z.isFinite = true := by
    show ¬(parts z).isFinite = true
    rw [hz]
    exact Bool.false_ne_true
  refine ⟨iff_of_false hinfinite (not_lt.mpr hq), fun h => absurd h hinfinite, ?_⟩
  show (parts z).isNaN = false
  rw [hz]
  rfl

/-- Parts that are in range but for the size of the exponent are those of the nearest double, or
of a number that has none. -/
theorem nearest_pack {s : UnpackedFloat.Sign} {n : Nat} {k : Int} (hn : 0 < n)
    (hlt : n < 2 ^ 53) (hleast : -1074 ≤ k) (hfull : 2 ^ 52 ≤ n ∨ k = -1074) {q : Rat}
    (hq : rounded q = n * 2 ^ k) :
    Nearest (.ofModel (.pack (.finite s n k hn))) (factor s * q) := by
  have hbound : |factor s * q| < overflowBound ↔ (n : Rat) * 2 ^ k < 2 ^ (1024 : Int) := by
    rw [← abs_rounded_lt_iff, rounded_factor, abs_mul, abs_factor, one_mul, hq,
      abs_of_pos (magnitude_pos hn k)]
  by_cases hk : k ≤ 971
  · have hc : Canonical n k := ⟨hn, hlt, hleast, hk, hfull⟩
    have hparts := hc.parts_pack s
    have hmagnitude : (n : Rat) * 2 ^ k < 2 ^ (1024 : Int) := by
      have hn' : (n : Rat) < 2 ^ 53 := by exact_mod_cast hlt
      calc (n : Rat) * 2 ^ k < 2 ^ 53 * 2 ^ k := by gcongr
        _ = 2 ^ (53 + k : Int) := by rw [zpow_add₀ two_ne_zero]; norm_cast
        _ ≤ 2 ^ (1024 : Int) := zpow_le_zpow_right₀ one_le_two (by omega)
    refine ⟨iff_of_true ?_ (hbound.mpr hmagnitude), fun _ => ?_, ?_⟩
    · show (parts _).isFinite = true
      rw [hparts]
      rfl
    · rw [toRat_of_parts hparts, rounded_factor, hq]
    · show (parts _).isNaN = false
      rw [hparts]
      rfl
  · have hparts := parts_pack_infinity s hn (not_le.mp hk)
    have hmagnitude : (2 : Rat) ^ (1024 : Int) ≤ n * 2 ^ k := by
      have hn' : (2 : Rat) ^ 52 ≤ n := by
        exact_mod_cast hfull.resolve_right (by omega)
      calc (2 : Rat) ^ (1024 : Int) ≤ 2 ^ (52 + k : Int) :=
            zpow_le_zpow_right₀ one_le_two (by omega)
        _ = 2 ^ 52 * 2 ^ k := by rw [zpow_add₀ two_ne_zero]; norm_cast
        _ ≤ n * 2 ^ k := by gcongr
    exact nearest_of_infinity hparts (not_lt.mp fun h =>
      absurd (hbound.mp h) (not_lt.mpr hmagnitude))

theorem nearest_roundWithAccuracy (s : UnpackedFloat.Sign) {m : Nat} {e : Int} {a : Accuracy}
    {x : Rat} (hx : Reads (.ofMantissaAndAccuracy m a) x) (hpos : 0 < x)
    (he : e ≤ Format.targetExponent .binary64 (totalExponent m e)) :
    Nearest (.ofModel (.pack (roundWithAccuracy .binary64 s m e a))) (factor s * (x * 2 ^ e)) := by
  rcases roundWithAccuracy_cases s hx hpos he with ⟨hzero, h⟩ | ⟨n, k, hn, hlt, hk, hfull, hq, h⟩
  · rw [h]
    exact nearest_of_zero (parts_pack_zero s) (by rw [rounded_factor, hzero, mul_zero])
  · rw [h]
    exact nearest_pack hn hlt hk hfull hq

theorem Canonical.rounded_eq {m : Nat} {e : Int} (h : Canonical m e) :
    rounded ((m : Rat) * 2 ^ e) = m * 2 ^ e := by
  apply rounded_of_representable
  refine ⟨m, e, h.least, ?_, by push_cast; rfl⟩
  rw [abs_of_nonneg (by positivity)]
  exact_mod_cast h.lt.le

theorem nearest_self {x : Float} (hx : x.isFinite = true) : Nearest x (toRat x) := by
  rcases finite_cases hx with ⟨s, hp⟩ | ⟨s, m, e, hm, hp⟩
  · exact nearest_of_zero hp (by rw [toRat_of_zero hp, rounded_zero])
  · have hc := canonical_of_parts hp
    have hnearest := nearest_pack (s := s) hm hc.lt hc.least hc.full hc.rounded_eq
    rwa [← toRat_of_parts hp, ← hp, pack_parts] at hnearest

theorem representable_toRat {x : Float} (hx : x.isFinite = true) : Representable (toRat x) := by
  rw [(nearest_self hx).toRat_eq hx]
  exact representable_rounded _

/-! ## Sums -/

/-- A significand of any size is brought to the exponent at which it can be rounded. -/
theorem nearest_round (s : UnpackedFloat.Sign) {m : Nat} (hm : 0 < m) (e : Int) :
    Nearest (.ofModel (.pack (UnpackedFloat.round .binary64 s m e))) (factor s * (m * 2 ^ e)) := by
  obtain ⟨d, hd⟩ :
      ∃ d, d = (e - Format.targetExponent .binary64 (totalExponent m e)).toNat := ⟨_, rfl⟩
  have hpos : 0 < m * 2 ^ d := by positivity
  have hvalue : (m : Rat) * 2 ^ e = (m * 2 ^ d : Nat) * 2 ^ (e - d) := by
    have he : (2 : Rat) ^ e = 2 ^ d * 2 ^ (e - d) := by
      rw [← zpow_natCast, ← zpow_add₀ two_ne_zero]
      congr 1
      omega
    rw [he]
    push_cast
    ring
  have htarget : e - d ≤ Format.targetExponent .binary64 (totalExponent (m * 2 ^ d) (e - d)) := by
    rw [targetExponent_eq] at hd
    rw [targetExponent_eq, log2_mul_two_pow hm]
    omega
  have hround : UnpackedFloat.round .binary64 s m e =
      roundWithAccuracy .binary64 s (m * 2 ^ d) (e - d) .exact := by
    simp only [UnpackedFloat.round, decreaseExponent, ← hd, Nat.shiftLeft_eq]
  rw [hround, hvalue]
  exact nearest_roundWithAccuracy s (reads_exact _) (by exact_mod_cast hpos) htarget

theorem nearest_normalize (n : Int) (e : Int) :
    Nearest (.ofModel (.pack (UnpackedFloat.normalize .binary64 n e .positive))) (n * 2 ^ e) := by
  rw [UnpackedFloat.normalize]
  split
  · rename_i h
    have hneg : n < 0 := compare_lt_iff_lt.mp h
    have hcast : ((-n).toNat : Rat) = -n := by exact_mod_cast Int.toNat_of_nonneg (by omega)
    have hnearest := nearest_round .negative (m := (-n).toNat) (by omega) e
    rwa [hcast, factor, neg_one_mul, neg_mul, neg_neg] at hnearest
  · rename_i h
    rw [compare_eq_iff_eq.mp h, Int.cast_zero, zero_mul]
    exact nearest_of_zero (parts_pack_zero .positive) rounded_zero
  · rename_i h
    have hpos : 0 < n := compare_gt_iff_gt.mp h
    have hcast : (n.toNat : Rat) = n := by exact_mod_cast Int.toNat_of_nonneg hpos.le
    have hnearest := nearest_round .positive (m := n.toNat) (by omega) e
    rwa [hcast, factor, one_mul] at hnearest

theorem apply_shiftLeft (s : UnpackedFloat.Sign) (m : Nat) {e f : Int} (h : f ≤ e) :
    ((s.apply (m <<< (e - f).toNat : Nat) : Int) : Rat) * 2 ^ f = factor s * (m * 2 ^ e) := by
  obtain ⟨d, rfl⟩ := Int.le.dest h
  have hd : (f + d - f).toNat = d := by omega
  rw [cast_apply, hd, Nat.shiftLeft_eq, zpow_add₀ two_ne_zero, zpow_natCast]
  push_cast
  ring

theorem add_eq (x y : Float) :
    x + y = .ofModel (.pack ((parts x).add .binary64 (parts y))) := rfl

theorem sub_eq (x y : Float) :
    x - y = .ofModel (.pack ((parts x).sub .binary64 (parts y))) := rfl

section Operations

variable {x y : Float} (hx : x.isFinite = true) (hy : y.isFinite = true)

include hx hy

/-- A sum is the double nearest to the exact sum. -/
theorem nearest_add : Nearest (x + y) (toRat x + toRat y) := by
  rcases finite_cases hx with ⟨s, hpx⟩ | ⟨s, m, e, hm, hpx⟩ <;>
    rcases finite_cases hy with ⟨r, hpy⟩ | ⟨r, n, f, hn, hpy⟩
  · rw [toRat_of_zero hpx, toRat_of_zero hpy, add_zero, add_eq, hpx, hpy, UnpackedFloat.add]
    split
    · exact nearest_of_zero (parts_pack_zero _) rounded_zero
    · exact nearest_of_zero (parts_pack_zero _) rounded_zero
  · have hsum : x + y = y := by
      rw [add_eq, hpx, hpy]
      show Float.ofModel (.pack (.finite r n f hn)) = y
      rw [← hpy, pack_parts]
    rw [hsum, toRat_of_zero hpx, zero_add]
    exact nearest_self hy
  · have hsum : x + y = x := by
      rw [add_eq, hpx, hpy]
      show Float.ofModel (.pack (.finite s m e hm)) = x
      rw [← hpx, pack_parts]
    rw [hsum, toRat_of_zero hpy, add_zero]
    exact nearest_self hx
  · have hvalue : toRat x + toRat y =
        ((s.apply (m <<< (e - min e f).toNat : Nat) + r.apply (n <<< (f - min e f).toNat : Nat) :
          Int) : Rat) * 2 ^ min e f := by
      rw [Int.cast_add, add_mul, apply_shiftLeft s m (min_le_left e f),
        apply_shiftLeft r n (min_le_right e f), toRat_of_parts hpx, toRat_of_parts hpy]
    rw [hvalue, add_eq, hpx, hpy]
    exact nearest_normalize _ _

theorem nearest_sub : Nearest (x - y) (toRat x - toRat y) := by
  rcases finite_cases hx with ⟨s, hpx⟩ | ⟨s, m, e, hm, hpx⟩ <;>
    rcases finite_cases hy with ⟨r, hpy⟩ | ⟨r, n, f, hn, hpy⟩
  · rw [toRat_of_zero hpx, toRat_of_zero hpy, sub_zero, sub_eq, hpx, hpy, UnpackedFloat.sub]
    split
    · exact nearest_of_zero (parts_pack_zero _) rounded_zero
    · exact nearest_of_zero (parts_pack_zero _) rounded_zero
  · have hc := canonical_of_parts hpy
    have hnearest := nearest_pack (s := -r) hn hc.lt hc.least hc.full hc.rounded_eq
    rw [toRat_of_zero hpx, zero_sub, toRat_of_parts hpy, sub_eq, hpx, hpy, ← neg_mul, ← factor_neg]
    exact hnearest
  · have hdifference : x - y = x := by
      rw [sub_eq, hpx, hpy]
      show Float.ofModel (.pack (.finite s m e hm)) = x
      rw [← hpx, pack_parts]
    rw [hdifference, toRat_of_zero hpy, sub_zero]
    exact nearest_self hx
  · have hvalue : toRat x - toRat y =
        ((s.apply (m <<< (e - min e f).toNat : Nat) - r.apply (n <<< (f - min e f).toNat : Nat) :
          Int) : Rat) * 2 ^ min e f := by
      rw [Int.cast_sub, sub_mul, apply_shiftLeft s m (min_le_left e f),
        apply_shiftLeft r n (min_le_right e f), toRat_of_parts hpx, toRat_of_parts hpy]
    rw [hvalue, sub_eq, hpx, hpy]
    exact nearest_normalize _ _

end Operations

/-! ## Products and quotients -/

/-- A product has at least as many bits as a double, unless both factors lack some. -/
theorem Canonical.mul_exponent_le {m n : Nat} {e f : Int} (hm : Canonical m e)
    (hn : Canonical n f) :
    e + f ≤ Format.targetExponent .binary64 (totalExponent (m * n) (e + f)) := by
  rw [targetExponent_eq]
  have hpos : m * n ≠ 0 := (Nat.mul_pos hm.pos hn.pos).ne'
  by_cases hlarge : 2 ^ 52 ≤ m * n
  · have := (Nat.le_log2 hpos).mpr hlarge
    omega
  · have hm' : e = -1074 := hm.full.resolve_left fun h =>
      hlarge (h.trans (Nat.le_mul_of_pos_right m hn.pos))
    have hn' : f = -1074 := hn.full.resolve_left fun h =>
      hlarge (h.trans (Nat.le_mul_of_pos_left n hm.pos))
    omega

theorem divCore_exponent_le {m n : Nat} {e f : Int} (hm : 0 < m) (hn : 0 < n) :
    let t := min (e - f) (Format.targetExponent .binary64 (totalExponent m e - totalExponent n f))
    t ≤ Format.targetExponent .binary64
      (totalExponent (m <<< (e - f - t).toNat / n) t) := by
  intro t
  obtain ⟨d, hd⟩ : ∃ d, d = (e - f - t).toNat := ⟨_, rfl⟩
  have ht : t = min (e - f) (max (m.log2 + e - n.log2 - f - 53) (-1074)) := by
    simp only [t, targetExponent_binary64, totalExponent]
    congr 2
    omega
  rw [targetExponent_eq, ← hd, Nat.shiftLeft_eq]
  by_cases hleast : t ≤ -1074
  · omega
  · have hbits : n.log2 + 53 ≤ m.log2 + d := by omega
    have hquotient : 2 ^ 52 ≤ m * 2 ^ d / n := by
      rw [Nat.le_div_iff_mul_le hn]
      have hshifted : 2 ^ (n.log2 + 53) ≤ m * 2 ^ d := by
        rw [← Nat.le_log2 (by positivity), log2_mul_two_pow hm]
        exact hbits
      calc 2 ^ 52 * n ≤ 2 ^ 52 * 2 ^ (n.log2 + 1) := Nat.mul_le_mul_left _ Nat.lt_log2_self.le
        _ = 2 ^ (n.log2 + 53) := by rw [← pow_add]; congr 1; omega
        _ ≤ m * 2 ^ d := hshifted
    have := (Nat.le_log2 (by omega)).mpr hquotient
    omega

theorem mul_eq (x y : Float) :
    x * y = .ofModel (.pack ((parts x).mul .binary64 (parts y))) := rfl

theorem div_eq (x y : Float) :
    x / y = .ofModel (.pack ((parts x).div .binary64 (parts y))) := rfl

theorem nearest_divCore (s : UnpackedFloat.Sign) {m n : Nat} {e f : Int} (hm : 0 < m)
    (hn : 0 < n) :
    Nearest (.ofModel (.pack (roundWithAccuracy .binary64 s (divCore .binary64 m e n f).1
      (divCore .binary64 m e n f).2.1 (divCore .binary64 m e n f).2.2)))
      (factor s * (m * 2 ^ e / (n * 2 ^ f))) := by
  have hexponent := divCore_exponent_le (e := e) (f := f) hm hn
  obtain ⟨t, ht⟩ : ∃ t, t = min (e - f)
    (Format.targetExponent .binary64 (totalExponent m e - totalExponent n f)) := ⟨_, rfl⟩
  obtain ⟨d, hd⟩ : ∃ d, d = (e - f - t).toNat := ⟨_, rfl⟩
  simp only [divCore, ← ht, ← hd, Nat.shiftLeft_eq] at hexponent ⊢
  have hreads := reads_fraction (m * 2 ^ d / n) (Nat.mod_lt (m * 2 ^ d) hn)
  have hn' : (n : Rat) ≠ 0 := by exact_mod_cast hn.ne'
  have hquotient : ((m * 2 ^ d / n : Nat) : Rat) + (m * 2 ^ d % n : Nat) / n = m * 2 ^ d / n := by
    rw [eq_div_iff hn', add_mul, div_mul_cancel₀ _ hn', mul_comm _ (n : Rat)]
    exact_mod_cast Nat.div_add_mod (m * 2 ^ d) n
  have hvalue : (m : Rat) * 2 ^ e / (n * 2 ^ f) = m * 2 ^ d / n * 2 ^ t := by
    have he : (2 : Rat) ^ e = 2 ^ d * 2 ^ t * 2 ^ f := by
      rw [← zpow_natCast, ← zpow_add₀ two_ne_zero, ← zpow_add₀ two_ne_zero]
      congr 1
      omega
    rw [he]
    field_simp
  rw [hquotient] at hreads
  rw [hvalue]
  exact nearest_roundWithAccuracy s hreads (by positivity) hexponent

section Operations

variable {x y : Float} (hx : x.isFinite = true) (hy : y.isFinite = true)

include hx hy

theorem nearest_mul : Nearest (x * y) (toRat x * toRat y) := by
  rcases finite_cases hx with ⟨s, hpx⟩ | ⟨s, m, e, hm, hpx⟩ <;>
    rcases finite_cases hy with ⟨r, hpy⟩ | ⟨r, n, f, hn, hpy⟩
  · rw [toRat_of_zero hpx, zero_mul, mul_eq, hpx, hpy]
    exact nearest_of_zero (parts_pack_zero _) rounded_zero
  · rw [toRat_of_zero hpx, zero_mul, mul_eq, hpx, hpy]
    exact nearest_of_zero (parts_pack_zero _) rounded_zero
  · rw [toRat_of_zero hpy, mul_zero, mul_eq, hpx, hpy]
    exact nearest_of_zero (parts_pack_zero _) rounded_zero
  · have hexponent := (canonical_of_parts hpx).mul_exponent_le (canonical_of_parts hpy)
    have hvalue : toRat x * toRat y = factor (s * r) * ((m * n : Nat) * 2 ^ (e + f)) := by
      rw [toRat_of_parts hpx, toRat_of_parts hpy, factor_mul, zpow_add₀ two_ne_zero]
      push_cast
      ring
    rw [hvalue, mul_eq, hpx, hpy]
    exact nearest_roundWithAccuracy (s * r) (reads_exact _)
      (by exact_mod_cast Nat.mul_pos hm hn) hexponent

theorem nearest_div (hzero : toRat y ≠ 0) : Nearest (x / y) (toRat x / toRat y) := by
  rcases finite_cases hy with ⟨r, hpy⟩ | ⟨r, n, f, hn, hpy⟩
  · exact absurd (toRat_of_zero hpy) hzero
  rcases finite_cases hx with ⟨s, hpx⟩ | ⟨s, m, e, hm, hpx⟩
  · rw [toRat_of_zero hpx, zero_div, div_eq, hpx, hpy]
    exact nearest_of_zero (parts_pack_zero _) rounded_zero
  · have hvalue : toRat x / toRat y = factor (s / r) * (m * 2 ^ e / (n * 2 ^ f)) := by
      rw [toRat_of_parts hpx, toRat_of_parts hpy, mul_div_mul_comm, ← factor_div]
    rw [hvalue, div_eq, hpx, hpy]
    exact nearest_divCore (s / r) hm hn

end Operations

end Reckoner.Binary64
