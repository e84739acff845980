/-
# `Reckoner.Proofs.Binary64.TiesToEven` — the nearest double, among all others

`NearestEven z q` compares `z` with every finite double and says nothing of how it was
computed: none is nearer to `q`, and if another is as near, the significand of `z` is even.
`nearestEven_iff` says that within the range exactly the rounded number satisfies this, so
there is one such value.

Two doubles are equally near only if both are multiples of the unit in which `q` is
measured, one above `q` and one below (`exists_multiple`).  Such multiples alternate
between even and odd, and so do the significands (`even_significand_iff`).
-/
import Reckoner.Proofs.Binary64.Gap

namespace Reckoner.Binary64

open Float.Model (UnpackedFloat)
open Float.Model.UnpackedFloat

/-- `z` is the finite double nearest to `q`, with an even significand if another is as near. -/
structure NearestEven (z : Float) (q : Rat) : Prop where
  isFinite : z.isFinite = true
  nearest : ∀ y : Float, y.isFinite = true → |q - toRat z| ≤ |q - toRat y|
  even_of_tie : ∀ y : Float, y.isFinite = true → |q - toRat y| = |q - toRat z| →
    toRat y ≠ toRat z → Even (significand z)

/-! ## Doubles and multiples of a unit -/

theorem exists_toRat_eq_rounded {q : Rat} (hq : |q| < overflowBound) :
    ∃ x : Float, x.isFinite = true ∧ toRat x = rounded q := by
  have hnearest := nearest_normalize (roundEven (measure q)) (unitExponent q)
  have hrange : |rounded q| < overflowBound :=
    (abs_rounded_le_largest hq).trans_lt largest_lt_overflowBound
  have hfinite := hnearest.isFinite_iff.mpr hrange
  refine ⟨_, hfinite, ?_⟩
  rw [hnearest.toRat_eq hfinite]
  exact rounded_of_representable (representable_rounded q)

/-- Two counts of the same size in full units are equal, or one is twice the other at the next
power of two. -/
theorem count_cases {m n : Nat} {e u : Int} (hm : Canonical m e) (hn : n ≤ 2 ^ 53)
    (hu : -1074 ≤ u) (hfull : 2 ^ 52 ≤ n ∨ u = -1074) (h : (m : Rat) * 2 ^ e = n * 2 ^ u) :
    m = n ∨ m = 2 ^ 52 ∧ n = 2 ^ 53 := by
  have hcancel : ∀ {a b : Nat} (k : Int), (a : Rat) * 2 ^ k = b * 2 ^ k → a = b := by
    intro a b k hab
    exact_mod_cast mul_right_cancel₀ (zpow_ne_zero k two_ne_zero) hab
  rcases lt_trichotomy e u with heu | rfl | heu
  · -- the larger unit is full, so its count would have too many bits in the smaller one
    exfalso
    obtain ⟨d, hd⟩ := Int.le.dest heu.le
    rw [← hd, natCast_mul_two_zpow_add] at h
    have hcount := hcancel e h
    have hlarge : 2 ^ 52 ≤ n := hfull.resolve_right (by have := hm.least; omega)
    have hd' : 2 ^ 1 ≤ 2 ^ d := Nat.pow_le_pow_right two_pos (by omega)
    have hsmall := hm.lt
    have := Nat.mul_le_mul hlarge hd'
    omega
  · exact Or.inl (hcancel e h)
  · right
    obtain ⟨d, hd⟩ := Int.le.dest heu.le
    rw [← hd, natCast_mul_two_zpow_add] at h
    have hcount := hcancel u h
    have hlarge : 2 ^ 52 ≤ m := hm.full.resolve_right (by omega)
    have hd' : 2 ^ 1 ≤ 2 ^ d := Nat.pow_le_pow_right two_pos (by omega)
    have hsmall := Nat.mul_le_mul hlarge hd'
    have hn' : n = 2 ^ 53 := by omega
    have hupper := Nat.mul_le_mul_left m hd'
    exact ⟨by omega, hn'⟩

/-- A double that counts `k` units has a significand of the parity of `k`, if its bits are no
fewer than the unit allows. -/
theorem even_significand_iff {z : Float} (hz : z.isFinite = true) {k u : Int} (hk : |k| ≤ 2 ^ 53)
    (hu : -1074 ≤ u) (hfull : 2 ^ 52 ≤ |k| ∨ u = -1074) (h : toRat z = k * 2 ^ u) :
    Even (significand z) ↔ Even k := by
  have hunit : (0 : Rat) < 2 ^ u := by positivity
  rw [← Int.natAbs_even]
  rcases finite_cases hz with ⟨s, hp⟩ | ⟨s, m, e, hm, hp⟩
  · have hzero : k = 0 := by
      rw [toRat_of_zero hp] at h
      exact_mod_cast (mul_eq_zero.mp h.symm).resolve_right hunit.ne'
    rw [significand, hp, hzero]
    exact iff_of_true Even.zero Even.zero
  · have hcount : (m : Rat) * 2 ^ e = k.natAbs * 2 ^ u := by
      have habs : |toRat z| = |(k : Rat) * 2 ^ u| := by rw [h]
      rw [toRat_of_parts hp, abs_mul, abs_factor, one_mul, abs_of_pos (magnitude_pos hm e), abs_mul,
        abs_of_pos hunit] at habs
      rw [habs, Nat.cast_natAbs, Int.cast_abs]
    have hsignificand : significand z = m := by rw [significand, hp]
    rw [Int.abs_eq_natAbs] at hk hfull
    rw [hsignificand]
    rcases count_cases (canonical_of_parts hp) (by omega) hu (by omega) hcount with
      hmk | ⟨hpower, hpower'⟩
    · rw [hmk]
    · rw [hpower, hpower']
      exact iff_of_true (by decide) (by decide)

/-! ## Ties -/

theorem Representable.exists_multiple {q r : Rat} (hr : Representable r) (hq : q ≠ 0)
    (h : |q - r| ≤ |q - rounded q|) : ∃ k : Int, r = k * 2 ^ unitExponent q := by
  rcases hr.multiple_or_le (unitExponent q) with hmultiple | ⟨hu, hle⟩
  · exact hmultiple
  · -- below the binade of `q`, only the power of two at its foot can be as near
    have hfar := unit_le_abs hq hu
    have hfoot : ∀ s : Int, |q - rounded q| ≤ |q - (s * 2 ^ 52 : Int) * 2 ^ unitExponent q| :=
      fun s => abs_sub_rounded_le_multiple q (s * 2 ^ 52)
    have hpow : ∀ s : Int, ((s * 2 ^ 52 : Int) : Rat) * 2 ^ unitExponent q =
        s * 2 ^ (unitExponent q + 52) := by
      intro s
      rw [zpow_add₀ two_ne_zero]
      push_cast
      ring
    simp only [hpow] at hfoot
    rw [abs_le] at hle
    rcases le_total 0 q with hsign | hsign
    · have hnear := h.trans (hfoot 1)
      rw [abs_of_nonneg hsign] at hfar
      rw [Int.cast_one, one_mul, abs_of_nonneg (by linarith), abs_of_nonneg (by linarith)] at hnear
      exact ⟨1 * 2 ^ 52, by rw [hpow, Int.cast_one, one_mul]; linarith⟩
    · have hnear := h.trans (hfoot (-1))
      rw [abs_of_nonpos hsign] at hfar
      rw [Int.cast_neg, Int.cast_one, neg_one_mul, abs_of_nonpos (by linarith),
        abs_of_nonpos (by linarith)] at hnear
      exact ⟨-1 * 2 ^ 52, by rw [hpow, Int.cast_neg, Int.cast_one, neg_one_mul]; linarith⟩

theorem count_bounds {q : Rat} (hq : q ≠ 0) {k : Int} (h : |measure q - k| ≤ 1 / 2) :
    |k| ≤ 2 ^ 53 ∧ (2 ^ 52 ≤ |k| ∨ unitExponent q = -1074) := by
  have hupper := abs_measure_lt q
  have htriangle : |(k : Rat)| ≤ |measure q| + 1 / 2 := by
    have := abs_sub_abs_le_abs_sub (k : Rat) (measure q)
    rw [abs_sub_comm] at this
    linarith
  have htriangle' : |measure q| ≤ |(k : Rat)| + 1 / 2 := by
    have := abs_sub_abs_le_abs_sub (measure q) (k : Rat)
    linarith
  constructor
  · have hlt : |(k : Rat)| < 2 ^ 53 + 1 := by linarith
    have : |k| < 2 ^ 53 + 1 := by exact_mod_cast hlt
    omega
  · by_cases hu : unitExponent q = -1074
    · exact Or.inr hu
    · left
      have hlower := le_abs_measure hq hu
      have hlt : (2 : Rat) ^ 52 - 1 < |(k : Rat)| := by linarith
      have : (2 : Int) ^ 52 - 1 < |k| := by exact_mod_cast hlt
      omega

/-- If another double is as near as the rounded number, that one is odd and the rounded number is
even. -/
theorem even_significand_of_tie {q : Rat} {w z : Float} (hw : w.isFinite = true)
    (hz : z.isFinite = true) (hrounded : toRat w = rounded q)
    (hnear : |q - toRat z| ≤ |q - toRat w|) (hne : toRat z ≠ toRat w) :
    Even (significand w) ∧ ¬Even (significand z) := by
  have hq : q ≠ 0 := by
    rintro rfl
    rw [hrounded, rounded_zero, sub_zero, abs_zero, zero_sub, abs_neg, abs_nonpos_iff] at hnear
    rw [hrounded, rounded_zero] at hne
    exact hne hnear
  have hunit : (0 : Rat) < 2 ^ unitExponent q := by positivity
  obtain ⟨n, hn⟩ : ∃ n, n = roundEven (measure q) := ⟨_, rfl⟩
  have hw' : toRat w = n * 2 ^ unitExponent q := by rw [hrounded, rounded, hn]
  rw [hrounded] at hnear
  obtain ⟨k, hk⟩ := (representable_toRat hz).exists_multiple hq hnear
  have hspec := roundEven_spec (measure q)
  have hkle : |measure q - k| ≤ |measure q - n| := by
    rw [← hrounded, hk, hw', abs_sub_multiple, abs_sub_multiple] at hnear
    exact le_of_mul_le_mul_right hnear hunit
  have hnle : |measure q - n| ≤ 1 / 2 := hn ▸ abs_sub_roundEven_le (measure q)
  have hkn : k ≠ n := by
    rintro rfl
    exact hne (hk.trans hw'.symm)
  -- the nearest integer is not alone, so it is even, and its neighbour is not
  have heven : Even n := by
    rw [← hn] at hspec
    refine (hspec.resolve_left fun hlt => hkn ?_).2
    exact eq_of_nearest (Or.inl (hkle.trans_lt hlt)) (Or.inl hlt)
  have hodd : ¬Even k := by
    intro hk'
    refine hkn (eq_of_nearest (q := measure q) ?_ (hn ▸ hspec))
    exact (hkle.trans hnle).lt_or_eq.imp_right fun heq => ⟨heq, hk'⟩
  obtain ⟨hnsize, hnfull⟩ := count_bounds hq hnle
  obtain ⟨hksize, hkfull⟩ := count_bounds hq (hkle.trans hnle)
  rw [even_significand_iff hw hnsize (le_unitExponent q) hnfull hw',
    even_significand_iff hz hksize (le_unitExponent q) hkfull hk]
  exact ⟨heven, hodd⟩

/-! ## The rounded number is the nearest, and the only one -/

theorem nearestEven_of_toRat_eq {z : Float} {q : Rat} (hz : z.isFinite = true)
    (h : toRat z = rounded q) : NearestEven z q where
  isFinite := hz
  nearest := fun _ hy => h ▸ abs_sub_rounded_le (representable_toRat hy)
  even_of_tie := fun _ hy htie hne => (even_significand_of_tie hz hy h htie.le hne).1

/-- In the range the nearest doubles, with ties to even, are those with the rounded number as
their value. -/
theorem nearestEven_iff {z : Float} {q : Rat} (hq : |q| < overflowBound) :
    NearestEven z q ↔ z.isFinite = true ∧ toRat z = rounded q := by
  constructor
  · intro h
    refine ⟨h.isFinite, ?_⟩
    obtain ⟨w, hw, hrounded⟩ := exists_toRat_eq_rounded hq
    have hnear := nearestEven_of_toRat_eq hw hrounded
    rw [← hrounded]
    by_contra hne
    -- a second nearest double would be odd, and even as well
    have htie : |q - toRat w| = |q - toRat z| :=
      le_antisymm (hnear.nearest z h.isFinite) (h.nearest w hw)
    exact (even_significand_of_tie hw h.isFinite hrounded htie.ge hne).2
      (h.even_of_tie w hw htie (Ne.symm hne))
  · rintro ⟨hz, h⟩
    exact nearestEven_of_toRat_eq hz h

end Reckoner.Binary64
