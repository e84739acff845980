/-
# `Reckoner.Proofs.Binary64.Gap` — the doubles below a double

Between a double and its neighbour towards zero there is a gap, one unit of its last
place; at a power of two the units change, and the gap is half of that (`gapBelow`,
`gapBelow_spec`).  What falls into the gap is rounded to one of its ends:
`rounded_eq_iff` says to which.  In a tie the even significand wins, and a power of two
is even in either unit.
-/
import Reckoner.Proofs.Binary64.Rounded

namespace Reckoner.Binary64

open Float.Model (UnpackedFloat)
open Float.Model.UnpackedFloat

def significand (x : Float) : Nat :=
  match parts x with
  | .finite _ m _ _ => m
  | _ => 0

/-- The exponent of the unit in which the doubles below `m · 2 ^ e` are counted. -/
def gapExponent (m : Nat) (e : Int) : Int := if m = 2 ^ 52 ∧ -1074 < e then e - 1 else e

/-- The distance from a finite double to its neighbour towards zero. -/
def gapBelow (x : Float) : Rat :=
  match parts x with
  | .finite _ m e _ => 2 ^ gapExponent m e
  | _ => 0

/-! ## Counting in gaps -/

/-- A number of `n` gaps: all of them below it are as wide, down to half its size. -/
structure Counted (n : Nat) (k : Int) : Prop where
  least : -1074 ≤ k
  most : k ≤ 971
  le : n ≤ 2 ^ 53
  full : 2 ^ 52 < n ∨ k = -1074

theorem Canonical.exists_counted {m : Nat} {e : Int} (h : Canonical m e) :
    ∃ n, Counted n (gapExponent m e) ∧ (m : Rat) * 2 ^ e = n * 2 ^ gapExponent m e ∧
      (Even n ↔ Even m) := by
  obtain ⟨hpos, hlt, hleast, hmost, hfull⟩ := h
  rw [gapExponent]
  split_ifs with hpower
  · obtain ⟨rfl, he⟩ := hpower
    refine ⟨2 ^ 53, ⟨by omega, by omega, le_rfl, Or.inl (by norm_num)⟩, ?_,
      iff_of_true (by decide) (by decide)⟩
    have hunit : (2 : Rat) ^ e = 2 ^ (e - 1) * 2 := by
      rw [← zpow_add_one₀ two_ne_zero, sub_add_cancel]
    rw [hunit]
    push_cast
    ring
  · refine ⟨m, ⟨hleast, hmost, hlt.le, ?_⟩, rfl, Iff.rfl⟩
    rcases hfull with hfull | rfl
    · by_cases hm : m = 2 ^ 52
      · exact Or.inr (by omega)
      · exact Or.inl (by omega)
    · exact Or.inr rfl

section Counted

variable {n : Nat} {k : Int} (h : Counted n k)

include h

theorem Counted.le_of_small {q : Rat} (hq : q ≤ 2 ^ 52 * 2 ^ k) (hk : k ≠ -1074) :
    q ≤ (n - 1) * 2 ^ k := by
  have hcast : (2 : Rat) ^ 52 + 1 ≤ n := by exact_mod_cast h.full.resolve_right hk
  refine hq.trans (mul_le_mul_of_nonneg_right ?_ (by positivity))
  linarith

theorem Counted.le_of_lt {m : Nat} {e : Int} (hc : Canonical m e)
    (hlt : (m : Rat) * 2 ^ e < n * 2 ^ k) : (m : Rat) * 2 ^ e ≤ (n - 1) * 2 ^ k := by
  have hunit : (0 : Rat) < 2 ^ k := by positivity
  by_cases he : k ≤ e
  · obtain ⟨d, rfl⟩ := Int.le.dest he
    rw [natCast_mul_two_zpow_add] at hlt ⊢
    have hcount : m * 2 ^ d < n := by exact_mod_cast lt_of_mul_lt_mul_right hlt hunit.le
    refine mul_le_mul_of_nonneg_right ?_ hunit.le
    rw [le_sub_iff_add_le]
    exact_mod_cast hcount
  · refine h.le_of_small ?_ (by have := hc.least; omega)
    have hm : (m : Rat) ≤ 2 ^ 53 := by exact_mod_cast hc.lt.le
    calc (m : Rat) * 2 ^ e ≤ 2 ^ 53 * 2 ^ e := by gcongr
      _ = 2 ^ 52 * 2 ^ (e + 1) := by rw [zpow_add_one₀ two_ne_zero]; ring
      _ ≤ 2 ^ 52 * 2 ^ k := by gcongr <;> norm_num; omega

theorem Counted.exists_below (hn : 0 < n) :
    ∃ y : Float, y.isFinite = true ∧ toRat y = (n - 1) * 2 ^ k := by
  have hlt : n - 1 < 2 ^ 53 := by have := h.le; omega
  obtain ⟨hfinite, hvalue⟩ := ofParts_exact .positive hlt h.least h.most
  refine ⟨_, hfinite, hvalue.trans ?_⟩
  rw [UnpackedFloat.Sign.apply, Int.cast_natCast, Nat.cast_sub hn, Nat.cast_one]

/-- What is rounded up to the end of the gap. -/
theorem Counted.rounded_eq_iff {q : Rat} (hpos : 0 < q) (hlt : q < n * 2 ^ k) :
    rounded q = n * 2 ^ k ↔
      2 * (n * 2 ^ k - q) < 2 ^ k ∨ 2 * (n * 2 ^ k - q) = 2 ^ k ∧ Even n := by
  have hunit : (0 : Rat) < 2 ^ k := by positivity
  by_cases hsmall : q ≤ 2 ^ 52 * 2 ^ k ∧ k ≠ -1074
  · -- far below the gap nothing comes near its end
    obtain ⟨hq, hk⟩ := hsmall
    have hle := h.le_of_small hq hk
    have hpower : (2 : Rat) ^ 52 * 2 ^ k = 2 ^ (52 + k : Int) := by
      rw [zpow_add₀ two_ne_zero]
      norm_cast
    have hround : rounded q ≤ (n - 1) * 2 ^ k := by
      refine h.le_of_small ?_ hk
      rw [hpower] at hq ⊢
      exact (representable_two_pow (by have := h.least; omega)).rounded_le hq
    rw [sub_one_mul] at hle hround
    refine iff_of_false (by linarith) ?_
    rintro (h' | ⟨h', -⟩) <;> linarith
  · have hexponent : unitExponent q = k := by
      refine unitExponent_eq h.least ?_ ?_ hpos.ne'
      · have hn : (n : Rat) ≤ 2 ^ 53 := by exact_mod_cast h.le
        rw [abs_of_pos hpos]
        calc q < n * 2 ^ k := hlt
          _ ≤ 2 ^ 53 * 2 ^ k := by gcongr
          _ = 2 ^ (k + 53) := by rw [zpow_add₀ two_ne_zero, mul_comm]; norm_cast
      · by_cases hk : k = -1074
        · exact Or.inr hk
        · left
          have hq : (2 : Rat) ^ 52 * 2 ^ k < q := by
            by_contra hq
            exact hsmall ⟨not_lt.mp hq, hk⟩
          rw [abs_of_pos hpos, zpow_add₀ two_ne_zero, mul_comm]
          exact_mod_cast hq.le
    have hdistance : |q / 2 ^ k - n| = (n * 2 ^ k - q) / 2 ^ k := by
      have hneg : q / 2 ^ k - n < 0 := sub_neg.mpr ((div_lt_iff₀ hunit).mpr hlt)
      rw [abs_of_neg hneg, sub_div, mul_div_cancel_right₀ _ hunit.ne']
      ring
    have hround : rounded q = n * 2 ^ k ↔ roundEven (q / 2 ^ k) = n := by
      rw [rounded, measure, hexponent, mul_left_inj' hunit.ne']
      exact_mod_cast Iff.rfl
    have hlt_half : (n * 2 ^ k - q) / 2 ^ k < 1 / 2 ↔ 2 * (n * 2 ^ k - q) < 2 ^ k := by
      rw [div_lt_iff₀ hunit]
      constructor <;> intro h' <;> linarith
    have heq_half : (n * 2 ^ k - q) / 2 ^ k = 1 / 2 ↔ 2 * (n * 2 ^ k - q) = 2 ^ k := by
      rw [div_eq_iff hunit.ne']
      constructor <;> intro h' <;> linarith
    rw [hround, roundEven_eq_iff, Int.cast_natCast, hdistance, hlt_half, heq_half,
      Int.even_coe_nat]

end Counted

/-! ## The gap below a double -/

section Double

variable {x : Float} (hx : x.isFinite = true) (hne : toRat x ≠ 0)

include hx hne

theorem exists_counted : ∃ n k, Counted n k ∧ 0 < n ∧ |toRat x| = n * 2 ^ k ∧
    gapBelow x = 2 ^ k ∧ (Even n ↔ Even (significand x)) := by
  rcases finite_cases hx with ⟨s, hp⟩ | ⟨s, m, e, hm, hp⟩
  · exact absurd (toRat_of_zero hp) hne
  · obtain ⟨n, hc, hvalue, heven⟩ := (canonical_of_parts hp).exists_counted
    have habs : |toRat x| = n * 2 ^ gapExponent m e := by
      rw [toRat_of_parts hp, abs_mul, abs_factor, one_mul, abs_of_pos (magnitude_pos hm e), hvalue]
    have hn : 0 < n := by
      rcases Nat.eq_zero_or_pos n with rfl | hn
      · rw [Nat.cast_zero, zero_mul, abs_eq_zero] at habs
        exact absurd habs hne
      · exact hn
    refine ⟨n, _, hc, hn, habs, ?_, ?_⟩
    · rw [gapBelow, hp]
    · rw [significand, hp]
      exact heven

/-- Below a double there is a double at the distance of the gap, and none nearer. -/
theorem gapBelow_spec :
    (∃ y : Float, y.isFinite = true ∧ toRat y = |toRat x| - gapBelow x) ∧
      ∀ y : Float, y.isFinite = true → |toRat y| < |toRat x| →
        |toRat y| ≤ |toRat x| - gapBelow x := by
  obtain ⟨n, k, hc, hn, habs, hgap, -⟩ := exists_counted hx hne
  have hbelow : |toRat x| - gapBelow x = (n - 1) * 2 ^ k := by rw [habs, hgap, sub_one_mul]
  rw [hbelow, habs]
  refine ⟨hc.exists_below hn, fun y hy hlt => ?_⟩
  rcases finite_cases hy with ⟨s, hp⟩ | ⟨s, m, e, hm, hp⟩
  · have hcast : (1 : Rat) ≤ n := by exact_mod_cast hn
    rw [toRat_of_zero hp, abs_zero]
    exact mul_nonneg (sub_nonneg.mpr hcast) (by positivity)
  · have hvalue : |toRat y| = m * 2 ^ e := by
      rw [toRat_of_parts hp, abs_mul, abs_factor, one_mul, abs_of_pos (magnitude_pos hm e)]
    rw [hvalue] at hlt ⊢
    exact hc.le_of_lt (canonical_of_parts hp) hlt

/-- A number below a double is rounded up to it if it lies in the upper half of the gap, or in
its middle and the significand is even. -/
theorem abs_rounded_eq_iff {q : Rat} (hlt : |q| < |toRat x|) :
    |rounded q| = |toRat x| ↔ 2 * (|toRat x| - |q|) < gapBelow x ∨
      2 * (|toRat x| - |q|) = gapBelow x ∧ Even (significand x) := by
  obtain ⟨n, k, hc, hn, habs, hgap, heven⟩ := exists_counted hx hne
  rw [abs_rounded, habs, hgap, ← heven]
  rw [habs] at hlt
  rcases (abs_nonneg q).eq_or_lt with hq | hq
  · have hcast : (1 : Rat) ≤ n := by exact_mod_cast hn
    have hunit : (0 : Rat) < 2 ^ k := by positivity
    have hle : (2 : Rat) ^ k ≤ n * 2 ^ k := le_mul_of_one_le_left hunit.le hcast
    rw [← hq, rounded_zero, sub_zero]
    refine iff_of_false (by linarith) ?_
    rintro (h | ⟨h, -⟩) <;> linarith
  · exact hc.rounded_eq_iff hq hlt

end Double

end Reckoner.Binary64
