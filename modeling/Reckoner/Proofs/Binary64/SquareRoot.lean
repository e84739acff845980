/-
# `Reckoner.Proofs.Binary64.SquareRoot` — square roots are rounded once

Core takes the root of a significand that has been shifted far enough, as an integer, and
tells by the remainder whether the real root is that integer, lies in the half step above it
or beyond.  The real root may be irrational, and rounding here is of rational numbers.  But
rounding needs to know no more than the half step (`Reads`), and the real root is a limit of
rational numbers that are read alike (`sqrt_mem_closure`).  So what is nearest to those is
nearest to the root (`sqrt_finite_spec`).

The root of a double without a sign is finite where the double is (`isFinite_sqrt`), and no
double is nearer to the real root (`abs_sqrt_sub_le`).
-/
import Reckoner.Proofs.Binary64.Rounded
import Reckoner.Proofs.Binary64.Sign

namespace Reckoner.Binary64

open Float.Model (Format UnpackedFloat totalExponent)
open Float.Model.UnpackedFloat

/-! ## The integer root and the half step -/

/-- Where the root of `n` lies, above its integer root. -/
def rootAccuracy (n : Nat) : Accuracy :=
  if n - n.sqrt * n.sqrt = 0 then .exact
  else .inexact (if n - n.sqrt * n.sqrt ≤ n.sqrt then .lt else .gt)

/-- What is read between an integer and the half above it, and from there to the next. -/
theorem reads_inexact (m : Nat) {x : Rat} :
    (m < x → x < m + 1 / 2 → Reads (.ofMantissaAndAccuracy m (.inexact .lt)) x) ∧
      (m + 1 / 2 < x → x < m + 1 → Reads (.ofMantissaAndAccuracy m (.inexact .gt)) x) := by
  constructor
  · intro hlow hhigh
    exact ⟨x - m, by linarith, by linarith,
      by simp [ExtendedMantissa.ofMantissaAndAccuracy]; linarith,
      by simp [ExtendedMantissa.ofMantissaAndAccuracy]⟩
  · intro hlow hhigh
    exact ⟨x - m - 1 / 2, by linarith, by linarith,
      by simp [ExtendedMantissa.ofMantissaAndAccuracy]; linarith,
      by simp [ExtendedMantissa.ofMantissaAndAccuracy]⟩

theorem mem_closure_of_between {P : Rat → Prop} (low high : Rat) {s : ℝ} (hlow : low < s)
    (hhigh : s < high) (h : ∀ x : Rat, low < x → x < high → P x) :
    s ∈ closure ((fun x : Rat => (x : ℝ)) '' {x | P x}) := by
  have hdense := Rat.denseRange_cast (𝕜 := ℝ)
  have hclosure := hdense.open_subset_closure_inter isOpen_Ioo ⟨hlow, hhigh⟩
  refine closure_mono ?_ hclosure
  rintro _ ⟨⟨hx, hx'⟩, x, rfl⟩
  exact ⟨x, h x (by exact_mod_cast hx) (by exact_mod_cast hx'), rfl⟩

/-- The root is a limit of numbers that are read as it is. -/
theorem sqrt_mem_closure (n : Nat) :
    √(n : ℝ) ∈ closure ((fun x : Rat => (x : ℝ)) ''
      {x | Reads (.ofMantissaAndAccuracy n.sqrt (rootAccuracy n)) x}) := by
  have hle := Nat.sqrt_le n
  have hlt := Nat.lt_succ_sqrt n
  obtain ⟨r, hr⟩ : ∃ r, r = n.sqrt := ⟨_, rfl⟩
  rw [rootAccuracy, ← hr]
  rw [← hr] at hle hlt
  have hreads := fun x => reads_inexact r (x := x)
  split_ifs with hzero hhalf
  · have hroot : √(n : ℝ) = ((r : Rat) : ℝ) := by
      rw [show n = r * r by omega, Nat.cast_mul, Real.sqrt_mul_self (Nat.cast_nonneg r),
        Rat.cast_natCast]
    rw [hroot]
    exact subset_closure ⟨r, reads_exact r, rfl⟩
  · refine mem_closure_of_between r (r + 1 / 2) ?_ ?_ fun x => (hreads x).1
    · have hlow : ((r * r : Nat) : ℝ) < n := by exact_mod_cast (by omega : r * r < n)
      rw [Rat.cast_natCast]
      refine Real.lt_sqrt_of_sq_lt ?_
      push_cast at hlow
      rwa [sq]
    · have hhigh : (n : ℝ) ≤ ((r * r + r : Nat) : ℝ) := by
        exact_mod_cast (by omega : n ≤ r * r + r)
      push_cast at hhigh ⊢
      rw [Real.sqrt_lt' (by positivity)]
      nlinarith
  · refine mem_closure_of_between (r + 1 / 2) (r + 1) ?_ ?_ fun x => (hreads x).2
    · have hlow : ((r * r + r + 1 : Nat) : ℝ) ≤ n := by
        exact_mod_cast (by omega : r * r + r + 1 ≤ n)
      push_cast at hlow ⊢
      refine Real.lt_sqrt_of_sq_lt ?_
      nlinarith
    · have hhigh : (n : ℝ) < ((r.succ * r.succ : Nat) : ℝ) := by exact_mod_cast hlt
      push_cast at hhigh ⊢
      rw [Real.sqrt_lt' (by positivity)]
      nlinarith

/-! ## Roots of doubles -/

/-- Core's root of parts: an even shift that leaves enough bits, if there can be enough. -/
theorem sqrtCore_eq (m : Nat) (e : Int) : ∃ (d : Nat) (t : Int), e = 2 * t + d ∧
    (t ≤ -1074 ∨ 104 ≤ m.log2 + d) ∧
    sqrtCore .binary64 m e = ((m * 2 ^ d).sqrt, t, rootAccuracy (m * 2 ^ d)) := by
  obtain ⟨t, ht⟩ : ∃ t, t = min (e.ediv 2)
    (Format.targetExponent .binary64 ((totalExponent m e + 1).ediv 2)) := ⟨_, rfl⟩
  obtain ⟨d, hd⟩ : ∃ d, d = (e - 2 * t).toNat := ⟨_, rfl⟩
  have ht' : t = min (e / 2) (max ((m.log2 + 1 + e + 1) / 2 - 53) (-1074)) := by
    rw [ht, targetExponent_binary64]
    rfl
  refine ⟨d, t, by omega, by omega, ?_⟩
  simp only [sqrtCore, ← ht, ← hd, Nat.shiftLeft_eq]
  rfl

theorem sqrt_exponent_le {n : Nat} {t : Int} (h : t ≤ -1074 ∨ 104 ≤ n.log2) :
    t ≤ Format.targetExponent .binary64 (totalExponent n.sqrt t) := by
  rw [targetExponent_eq]
  rcases h with h | h
  · omega
  · have hn : n ≠ 0 := by
      rintro rfl
      rw [Nat.log2_zero] at h
      omega
    have hroot : 2 ^ 52 ≤ n.sqrt := by
      rw [Nat.le_sqrt]
      calc 2 ^ 52 * 2 ^ 52 = 2 ^ 104 := by norm_num
        _ ≤ n := (Nat.le_log2 hn).mp h
    have := (Nat.le_log2 (by omega)).mpr hroot
    omega

theorem sqrt_eq (x : Float) : x.sqrt = .ofModel (.pack ((parts x).sqrt .binary64)) := rfl

/-- The root of a number in range is far from leaving the range, and so is twice the root. -/
theorem lt_overflowBound_of_sq_le {q y : Rat} (hq : q < overflowBound) (h : y ^ 2 ≤ 4 * q) :
    y < overflowBound := by
  have htop : topHalf ≤ overflowBound := by
    rw [overflowBound_eq]
    exact le_mul_of_one_le_left topHalf_pos.le (by norm_num)
  refine lt_of_lt_of_le (lt_of_pow_lt_pow_left₀ 2 topHalf_pos.le ?_) htop
  calc y ^ 2 ≤ 4 * q := h
    _ < 4 * 2 ^ (1024 : Int) := by linarith [overflowBound_lt]
    _ ≤ topHalf ^ 2 := by
        rw [topHalf, ← zpow_natCast, ← zpow_mul, show (4 : Rat) = 2 ^ (2 : Int) by norm_num,
          ← zpow_add₀ two_ne_zero]
        exact zpow_le_zpow_right₀ one_le_two (by norm_num)

theorem Reads.sqrt_bounds {n : Nat} (hn : 0 < n) {a : Accuracy} {y : Rat}
    (h : Reads (.ofMantissaAndAccuracy n.sqrt a) y) : 0 < y ∧ y ^ 2 ≤ 4 * n := by
  have hm : (ExtendedMantissa.ofMantissaAndAccuracy n.sqrt a).mantissa = n.sqrt := by
    cases a with
    | exact => rfl
    | inexact o => cases o <;> rfl
  have hle := h.mantissa_le
  have hlt := h.lt_mantissa_add_one
  rw [hm] at hle hlt
  have hone : (1 : Rat) ≤ n.sqrt := by exact_mod_cast Nat.sqrt_pos.mpr hn
  have hroot : (n.sqrt * n.sqrt : Rat) ≤ n := by exact_mod_cast Nat.sqrt_le n
  exact ⟨by linarith, by nlinarith⟩

theorem sqrt_finite_spec {x : Float} {m : Nat} {e : Int} {hm : 0 < m}
    (hx : parts x = .finite .positive m e hm) :
    x.sqrt.isFinite = true ∧ ∀ r : Rat, Representable r →
      |√(toRat x : ℝ) - toRat x.sqrt| ≤ |√(toRat x : ℝ) - r| := by
  obtain ⟨d, t, he, hbits, hcore⟩ := sqrtCore_eq m e
  obtain ⟨n, hn⟩ : ∃ n, n = m * 2 ^ d := ⟨_, rfl⟩
  have hpos : 0 < n := hn ▸ by positivity
  rw [← log2_mul_two_pow hm, ← hn] at hbits
  rw [← hn] at hcore
  have hvalue : toRat x = n * (2 ^ t) ^ 2 := by
    rw [toRat_of_positive hx, he, hn, two_mul, zpow_add₀ two_ne_zero, zpow_add₀ two_ne_zero,
      zpow_natCast]
    push_cast
    ring
  have hroot : x.sqrt = .ofModel (.pack
      (roundWithAccuracy .binary64 .positive n.sqrt t (rootAccuracy n))) := by
    rw [sqrt_eq, hx, UnpackedFloat.sqrt, hcore]
  have hrange : toRat x < overflowBound := by
    have hfinite : x.isFinite = true := congrArg UnpackedFloat.isFinite hx
    exact (le_abs_self _).trans_lt ((nearest_self hfinite).isFinite_iff.mp hfinite)
  -- everything that is read as the root is rounded to it
  have hnearest : ∀ y : Rat, Reads (.ofMantissaAndAccuracy n.sqrt (rootAccuracy n)) y →
      x.sqrt.isFinite = true ∧ toRat x.sqrt = rounded (y * 2 ^ t) := by
    intro y hy
    obtain ⟨hypos, hysq⟩ := hy.sqrt_bounds hpos
    have hnear := nearest_roundWithAccuracy .positive hy hypos (sqrt_exponent_le hbits)
    rw [← hroot, factor, one_mul] at hnear
    have hfinite : x.sqrt.isFinite = true := by
      rw [hnear.isFinite_iff, abs_of_pos (by positivity)]
      refine lt_overflowBound_of_sq_le hrange ?_
      rw [hvalue, mul_pow, ← mul_assoc]
      gcongr
    exact ⟨hfinite, hnear.toRat_eq hfinite⟩
  have hclosure := sqrt_mem_closure n
  obtain ⟨_, y₀, hy₀, rfl⟩ := closure_nonempty_iff.mp ⟨_, hclosure⟩
  refine ⟨(hnearest y₀ hy₀).1, fun r hr => ?_⟩
  have hscaled : √(toRat x : ℝ) = √(n : ℝ) * 2 ^ t := by
    rw [hvalue]
    push_cast
    rw [Real.sqrt_mul (Nat.cast_nonneg n), Real.sqrt_sq (by positivity)]
  rw [hscaled]
  -- being nearer is closed under limits
  have hclosed : IsClosed {s : ℝ | |s * 2 ^ t - toRat x.sqrt| ≤ |s * 2 ^ t - r|} :=
    isClosed_le (by fun_prop) (by fun_prop)
  refine hclosed.closure_subset_iff.mpr ?_ hclosure
  rintro _ ⟨y, hy, rfl⟩
  have hle := abs_sub_rounded_le (q := y * 2 ^ t) hr
  rw [← (hnearest y hy).2] at hle
  have hcast := (Rat.cast_le (K := ℝ)).mpr hle
  push_cast at hcast
  exact hcast

section Unsigned

variable {x : Float} (hx : Unsigned (parts x))

include hx

theorem isFinite_sqrt : x.sqrt.isFinite = x.isFinite := by
  have hsqrt := sqrt_eq x
  cases hp : parts x with
  | notANumber =>
      rw [hp] at hsqrt
      rw [hsqrt]
      exact congrArg UnpackedFloat.isFinite hp.symm
  | infinity s | zero s =>
      rw [hp] at hx hsqrt
      obtain rfl := hx
      rw [hsqrt]
      exact congrArg UnpackedFloat.isFinite hp.symm
  | finite s m e hm =>
      rw [hp] at hx
      obtain rfl := hx
      rw [(sqrt_finite_spec hp).1]
      exact congrArg UnpackedFloat.isFinite hp.symm

/-- No double is nearer to the real root. -/
theorem abs_sqrt_sub_le (hfinite : x.isFinite = true) {y : Float} (hy : y.isFinite = true) :
    |√(toRat x : ℝ) - toRat x.sqrt| ≤ |√(toRat x : ℝ) - toRat y| := by
  rcases finite_cases hfinite with ⟨s, hp⟩ | ⟨s, m, e, hm, hp⟩
  · have hroot : parts x.sqrt = .zero s := by rw [sqrt_eq, hp]; exact parts_pack_zero s
    rw [toRat_of_zero hp, toRat_of_zero hroot, Rat.cast_zero, Real.sqrt_zero, sub_self, abs_zero]
    exact abs_nonneg _
  · rw [hp] at hx
    obtain rfl := hx
    exact (sqrt_finite_spec hp).2 _ (representable_toRat hy)

end Unsigned

end Reckoner.Binary64
