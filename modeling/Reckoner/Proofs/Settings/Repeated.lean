/-
# `Reckoner.Proofs.Settings.Repeated` — rounding what has been rounded

A number that has been rounded to decimal places should stay as it is when it is rounded
again.  Counted in steps of the last place it is nearly an integer: it is the double nearest
to one.  Scaling counts the steps again, and in most binades the count is the same.

* Below `2 ^ 51` steps the error is at most a quarter of a step (`halfAway_restepped_of_lt`).
* From `2 ^ 52` steps on the scaled number has no fraction that could be rounded, and
  scaling down, up and down again changes nothing (`rounded_restepped_of_le`).
* Between the two, scaled numbers are counted in half steps.  What lies more than a quarter
  step above an integer is taken for the half, and the half goes up.

So a rounded number changes exactly if it `Wavers` there.  With two places or more some do,
with fewer none does (`round_round_iff`).
-/
import Reckoner.Proofs.Binary64.Places
import Reckoner.Proofs.Binary64.Rescale
import Reckoner.Settings

namespace Reckoner.Binary64

/-- Counted in steps of the last place the number lies in the binade whose doubles are halves, and
between a quarter and a half above an integer. -/
def Wavers (places : Nat) (q : Rat) : Prop :=
  2 ^ 51 ≤ |q| * steps places ∧ |q| * steps places < 2 ^ 52 ∧
    1 / 4 < Int.fract (|q| * steps places) ∧ Int.fract (|q| * steps places) < 1 / 2

theorem wavers_neg (places : Nat) (q : Rat) : Wavers places (-q) ↔ Wavers places q := by
  rw [Wavers, abs_neg, ← Wavers]

theorem not_wavers_zero (places : Nat) : ¬Wavers places 0 := by
  rintro ⟨h, -⟩
  norm_num at h

theorem not_wavers_of_le {places : Nat} {q : Rat} (h : overflowBound ≤ |q * steps places|) :
    ¬Wavers places q := by
  rintro ⟨-, hlt, -⟩
  rw [abs_mul, abs_of_pos (steps_pos places)] at h
  have htop : (1 : Rat) ≤ topHalf := one_le_zpow₀ one_le_two (by norm_num)
  rw [overflowBound_eq] at h
  linarith

/-! ## Counting steps again -/

/-- What `n` steps come to, counted in steps again. -/
def restepped (places : Nat) (n : Int) : Rat := rounded (n / steps places) * steps places

theorem fract_between_iff {t : Rat} {n : Int} (h : |t - n| < 1 / 2) :
    (1 / 4 < Int.fract t ∧ Int.fract t < 1 / 2) ↔ n + 1 / 4 < t := by
  rw [abs_lt] at h
  rcases le_or_gt (n : Rat) t with hle | hlt
  · have hfloor : ⌊t⌋ = n := Int.floor_eq_iff.mpr ⟨hle, by linarith⟩
    rw [Int.fract, hfloor]
    constructor
    · rintro ⟨hlow, -⟩
      linarith
    · intro hlow
      exact ⟨by linarith, by linarith⟩
  · have hfloor : ⌊t⌋ = n - 1 :=
      Int.floor_eq_iff.mpr ⟨by push_cast; linarith, by push_cast; linarith⟩
    rw [Int.fract, hfloor]
    push_cast
    exact iff_of_false (fun h' => by linarith [h'.2]) (by linarith)

theorem representable_fourths {k : Int} (hk : |k| ≤ 2 ^ 53) : Representable ((k : Rat) / 4) :=
  ⟨k, -2, by norm_num, hk, by norm_num; ring⟩

theorem representable_halves {k : Int} (hk : |k| ≤ 2 ^ 53) : Representable ((k : Rat) / 2) :=
  ⟨k, -1, by norm_num, hk, by norm_num; ring⟩

theorem sub_half_le_rounded {n : Int} (hn : 0 < n) (hhigh : n ≤ 2 ^ 52) {q : Rat}
    (h : n - 1 / 2 ≤ q) : n - 1 / 2 ≤ rounded q := by
  have hhalf : ((2 * n - 1 : Int) : Rat) / 2 = n - 1 / 2 := by
    push_cast
    ring
  rw [← hhalf] at h ⊢
  exact (representable_halves (by rw [abs_le]; omega)).le_rounded h

theorem unitExponent_halves {q : Rat} (h : 2 ^ 51 ≤ q) (h' : q < 2 ^ 52) : unitExponent q = -1 :=
  unitExponent_of_binade (by norm_num) (h.trans_eq' (by norm_num)) (h'.trans_eq (by norm_num))

theorem exists_int_rounded {q : Rat} (h : 2 ^ 52 ≤ q) : ∃ n : Int, rounded q = n := by
  have hpos : 0 < q := lt_of_lt_of_le (by norm_num) h
  have hunit : 0 ≤ unitExponent q := by
    by_contra hneg
    have hlt := abs_lt_unit q
    rw [abs_of_pos hpos] at hlt
    have hle : (2 : Rat) ^ (unitExponent q + 53) ≤ 2 ^ (52 : Int) :=
      zpow_le_zpow_right₀ one_le_two (by omega)
    norm_num at hle
    linarith
  obtain ⟨d, hd⟩ := Int.eq_ofNat_of_zero_le hunit
  refine ⟨roundEven (measure q) * 2 ^ d, ?_⟩
  rw [rounded, hd]
  push_cast
  rfl

section Steps

variable (places : Nat) {n : Int} (hn : 0 < n)

include hn

theorem abs_restepped_sub_le : |restepped places n - n| ≤ n / 2 ^ 53 := by
  have hsteps := steps_pos places
  have hone : (1 : Rat) ≤ n := by exact_mod_cast hn
  have hsize : (2 : Rat) ^ (-1022 : Int) ≤ n / steps places := by
    have hle : (steps places : Rat) ≤ 10 ^ 15 := by exact_mod_cast steps_le places
    calc (2 : Rat) ^ (-1022 : Int) ≤ 2 ^ (-50 : Int) :=
          zpow_le_zpow_right₀ one_le_two (by norm_num)
      _ ≤ 1 / 10 ^ 15 := by norm_num
      _ ≤ n / steps places := by gcongr
  have herror := abs_sub_rounded_le_mul hsize
  have hscaled : |restepped places n - n| =
      |n / steps places - rounded (n / steps places)| * steps places := by
    rw [← abs_of_pos hsteps, ← abs_mul, abs_of_pos hsteps, sub_mul,
      div_mul_cancel₀ _ hsteps.ne', abs_sub_comm, restepped]
  rw [hscaled]
  calc |n / steps places - rounded (n / steps places)| * steps places
      ≤ n / steps places / 2 ^ 53 * steps places := by gcongr
    _ = n / 2 ^ 53 := by field_simp

theorem halfAway_restepped_of_lt (hsmall : n < 2 ^ 51) :
    halfAway (rounded (restepped places n)) = n := by
  have herror := abs_restepped_sub_le places hn
  have hcast : (n : Rat) ≤ 2 ^ 51 - 1 := by
    have : n ≤ 2 ^ 51 - 1 := by omega
    exact_mod_cast this
  have hone : (1 : Rat) ≤ n := by exact_mod_cast hn
  rw [abs_le] at herror
  have hlow : ((4 * n - 1 : Int) : Rat) / 4 ≤ rounded (restepped places n) := by
    refine (representable_fourths (by rw [abs_le]; omega)).le_rounded ?_
    push_cast
    linarith
  have hhigh : rounded (restepped places n) ≤ ((4 * n + 1 : Int) : Rat) / 4 := by
    refine (representable_fourths (by rw [abs_le]; omega)).rounded_le ?_
    push_cast
    linarith
  push_cast at hlow hhigh
  exact (halfAway_eq_iff (by linarith)).mpr ⟨by linarith, by linarith⟩

/-! ### Half steps -/

section Halves

variable (hlow : 2 ^ 51 ≤ n) (hhigh : n < 2 ^ 52)

include hhigh

theorem abs_restepped_sub_lt : |restepped places n - n| < 1 / 2 := by
  have hcast : (n : Rat) < 2 ^ 52 := by exact_mod_cast hhigh
  refine (abs_restepped_sub_le places hn).trans_lt ?_
  rw [div_lt_div_iff₀ (by norm_num) (by norm_num)]
  linarith

theorem rounded_succ_ne :
    rounded ((n + 1 : Int) / steps places) ≠ rounded (n / steps places) := by
  intro heq
  have herror := abs_lt.mp (abs_restepped_sub_lt places hn hhigh)
  have hnext := abs_restepped_sub_le places (n := n + 1) (by omega)
  have hhigh' : ((n + 1 : Int) : Rat) ≤ 2 ^ 52 := by exact_mod_cast hhigh
  rw [restepped, heq, ← restepped, abs_le] at hnext
  push_cast at hnext hhigh'
  linarith

include hlow

omit hn in
/-- A quarter above an integer is as near to it as to the half, and the integer is even in
halves. -/
theorem rounded_quarter : rounded ((n : Rat) + 1 / 4) = n := by
  have hlow' : (2 : Rat) ^ 51 ≤ n := by exact_mod_cast hlow
  have hhigh' : ((n + 1 : Int) : Rat) ≤ 2 ^ 52 := by exact_mod_cast hhigh
  push_cast at hhigh'
  have hround : roundEven (((n : Rat) + 1 / 4) / 2 ^ (-1 : Int)) = 2 * n := by
    have hhalf : ((n : Rat) + 1 / 4) / 2 ^ (-1 : Int) - ((2 * n : Int) : Rat) = 1 / 2 := by
      push_cast
      norm_num
      ring
    rw [roundEven_eq_iff, hhalf]
    exact Or.inr ⟨abs_of_pos (by norm_num), even_two_mul n⟩
  rw [rounded, measure, unitExponent_halves (by linarith) (by linarith), hround]
  push_cast
  norm_num
  ring

theorem halfAway_restepped_of_le_quarter (h : restepped places n ≤ n + 1 / 4) :
    halfAway (rounded (restepped places n)) = n := by
  have herror := abs_lt.mp (abs_restepped_sub_lt places hn hhigh)
  have hone : (1 : Rat) ≤ n := by exact_mod_cast hn
  have hbelow := sub_half_le_rounded hn hhigh.le (q := restepped places n) (by linarith)
  have habove : rounded (restepped places n) ≤ n := by
    rw [← rounded_quarter hlow hhigh]
    exact rounded_mono h
  exact (halfAway_eq_iff (by linarith)).mpr ⟨by linarith, by linarith⟩

theorem halfAway_restepped_of_quarter_lt (h : n + 1 / 4 < restepped places n) :
    halfAway (rounded (restepped places n)) = n + 1 := by
  have herror := abs_lt.mp (abs_restepped_sub_lt places hn hhigh)
  have hlow' : (2 : Rat) ^ 51 ≤ n := by exact_mod_cast hlow
  have hhigh' : ((n + 1 : Int) : Rat) ≤ 2 ^ 52 := by exact_mod_cast hhigh
  push_cast at hhigh'
  have hhalf : rounded (restepped places n) = ((2 * n + 1 : Int) : Rat) / 2 := by
    refine rounded_of_near (by linarith)
      (representable_halves (k := 2 * n + 1) (by rw [abs_le]; omega)) ?_
    rw [unitExponent_halves (by linarith) (by linarith), abs_lt]
    push_cast
    constructor <;> norm_num <;> linarith
  rw [hhalf]
  push_cast
  exact (halfAway_eq_iff (by linarith)).mpr ⟨by push_cast; linarith, by push_cast; linarith⟩

end Halves

/-! ### Whole steps -/

/-- Only the power of two itself is scaled to less. -/
theorem eq_of_restepped_lt (hlarge : 2 ^ 52 ≤ n) (hlt : restepped places n < 2 ^ 52) :
    (n : Rat) = 2 ^ 52 := by
  have herror := abs_le.mp (abs_restepped_sub_le places hn)
  have hsmall : (n : Rat) < 2 ^ 52 + 1 := by linarith
  have hn' : n < 2 ^ 52 + 1 := by exact_mod_cast hsmall
  have hpower : n = 2 ^ 52 := by omega
  exact_mod_cast hpower

/-- From here on the scaled number has no fraction, unless it is one of a half that goes up to
where one had started. -/
theorem rounded_restepped_of_le (hrep : Representable n) (hlarge : 2 ^ 52 ≤ n) :
    rounded (halfAway (rounded (restepped places n)) / steps places) =
      rounded (n / steps places) := by
  have herror := abs_le.mp (abs_restepped_sub_le places hn)
  have hlarge' : (2 : Rat) ^ 52 ≤ n := by exact_mod_cast hlarge
  rcases le_or_gt (2 ^ 52) (restepped places n) with hle | hlt
  · obtain ⟨k, hk⟩ := exists_int_rounded hle
    have hpos : 0 < steps places := by exact_mod_cast steps_pos places
    rw [hk, halfAway_intCast, ← hk, restepped]
    exact rounded_rescale hpos ((steps_le places).trans (by norm_num)) hrep (by linarith)
  · have hpower := eq_of_restepped_lt places hn hlarge hlt
    have hn' : n = 2 ^ 52 := by exact_mod_cast hpower
    have hbelow := sub_half_le_rounded hn hn'.le (q := restepped places n) (by linarith)
    have habove : rounded (restepped places n) ≤ n := hrep.rounded_le (by linarith)
    have hcount : halfAway (rounded (restepped places n)) = n :=
      (halfAway_eq_iff (by linarith)).mpr ⟨by linarith, by linarith⟩
    rw [hcount]

end Steps

/-! ## Which numbers waver -/

/-- Of the numbers that some steps come to, those waver that are counted in half steps, with an
error of more than a quarter. -/
theorem wavers_iff (places : Nat) {n : Int} (hn : 0 < n) :
    Wavers places (rounded (n / steps places)) ↔
      2 ^ 51 ≤ n ∧ n < 2 ^ 52 ∧ n + 1 / 4 < restepped places n := by
  have herror := abs_le.mp (abs_restepped_sub_le places hn)
  have hone : (1 : Rat) ≤ n := by exact_mod_cast hn
  have hpos : 0 < restepped places n := by linarith
  have hcount : |rounded (n / steps places)| * steps places = restepped places n := by
    rw [abs_of_pos ((mul_pos_iff_of_pos_right (steps_pos places)).mp hpos), restepped]
  rw [Wavers, hcount]
  rcases lt_or_ge n (2 ^ 52) with hhigh | hlarge
  · have hhalf := abs_restepped_sub_lt places hn hhigh
    have hhigh' : ((n + 1 : Int) : Rat) ≤ 2 ^ 52 := by exact_mod_cast hhigh
    push_cast at hhigh'
    rw [fract_between_iff hhalf]
    rw [abs_lt] at hhalf
    constructor
    · rintro ⟨hle, -, hgt⟩
      have hmore : ((2 ^ 51 - 1 : Int) : Rat) < n := by
        push_cast
        linarith
      have hmore' : 2 ^ 51 - 1 < n := by exact_mod_cast hmore
      exact ⟨by omega, hhigh, hgt⟩
    · rintro ⟨hlow, -, hgt⟩
      have hlow' : (2 : Rat) ^ 51 ≤ n := by exact_mod_cast hlow
      exact ⟨by linarith, by linarith, hgt⟩
  · refine iff_of_false ?_ fun h => absurd h.2.1 (not_lt.mpr hlarge)
    rintro ⟨-, hlt, -, hfract⟩
    -- half a step less is the most that a power of two is scaled to
    have hpower := eq_of_restepped_lt places hn hlarge hlt
    have hfloor : ⌊restepped places n⌋ = n - 1 :=
      Int.floor_eq_iff.mpr ⟨by push_cast; linarith, by push_cast; linarith⟩
    rw [Int.fract, hfloor] at hfract
    push_cast at hfract
    linarith

/-- What `n` steps come to changes when its steps are counted again exactly if it wavers. -/
theorem rounded_restepped_iff (places : Nat) {n : Int} (hn : 0 < n) (hrep : Representable n) :
    rounded (halfAway (rounded (restepped places n)) / steps places) =
      rounded (n / steps places) ↔ ¬Wavers places (rounded (n / steps places)) := by
  rw [wavers_iff places hn]
  rcases lt_or_ge n (2 ^ 51) with hsmall | hlow
  · rw [halfAway_restepped_of_lt places hn hsmall]
    exact iff_of_true rfl fun h => absurd h.1 (not_le.mpr hsmall)
  rcases lt_or_ge n (2 ^ 52) with hhigh | hlarge
  · rcases le_or_gt (restepped places n) (n + 1 / 4) with hle | hgt
    · rw [halfAway_restepped_of_le_quarter places hn hlow hhigh hle]
      exact iff_of_true rfl fun h => absurd h.2.2 (not_lt.mpr hle)
    · rw [halfAway_restepped_of_quarter_lt places hn hlow hhigh hgt]
      exact iff_of_false (rounded_succ_ne places hn hhigh) (not_not.mpr ⟨hlow, hhigh, hgt⟩)
  · exact iff_of_true (rounded_restepped_of_le places hn hrep hlarge) fun h =>
      absurd h.2.1 (not_lt.mpr hlarge)

/-! ## Rounding twice -/

theorem representable_stepCount {places : Nat} {q : Rat}
    (h : |q * steps places| < overflowBound) : Representable (stepCount places q) := by
  obtain ⟨x, hx, hvalue⟩ := exists_toRat_eq_rounded h
  obtain ⟨hfinite, hround⟩ := roundHalfAway_spec hx
  rw [stepCount, ← hvalue, ← hround]
  exact representable_toRat hfinite

theorem placed_induction {places : Nat} {P : Rat → Prop} (hzero : P 0)
    (hsteps : ∀ n : Int, 0 < n → Representable n → P (rounded (n / steps places)))
    (hneg : ∀ q : Rat, P q → P (-q))
    (hout : ∀ q : Rat, overflowBound ≤ |q * steps places| → P q) (q : Rat) :
    P (placed places q) := by
  have hnonneg : ∀ r, 0 ≤ r → P (placed places r) := by
    intro r hr
    rcases lt_or_ge |r * steps places| overflowBound with hin | hout'
    · have hcount : 0 ≤ stepCount places r :=
        halfAway_nonneg (rounded_nonneg (mul_nonneg hr (steps_pos places).le))
      rw [placed_of_lt hin]
      rcases hcount.eq_or_lt with h | hpos
      · rwa [← h, Int.cast_zero, zero_div, rounded_zero]
      · exact hsteps _ hpos (representable_stepCount hin)
    · rw [placed_of_le hout']
      exact hout r hout'
  rcases le_total 0 q with hq | hq
  · exact hnonneg q hq
  · rw [← neg_neg q, placed_neg]
    exact hneg _ (hnonneg _ (neg_nonneg.mpr hq))

theorem placed_placed_iff (places : Nat) (q : Rat) :
    placed places (placed places q) = placed places q ↔ ¬Wavers places (placed places q) := by
  refine placed_induction (P := fun r => placed places r = r ↔ ¬Wavers places r)
    ?_ ?_ ?_ ?_ q
  · refine iff_of_true ?_ (not_wavers_zero places)
    rw [placed, stepCount, zero_mul, rounded_zero]
    norm_num [halfAway]
  · intro n hn hrep
    rcases lt_or_ge |rounded (n / steps places) * steps places| overflowBound with hin | hout
    · rw [placed_of_lt hin]
      exact rounded_restepped_iff places hn hrep
    · rw [placed_of_le hout]
      exact iff_of_true rfl (not_wavers_of_le hout)
  · intro r hr
    rwa [placed_neg, neg_inj, wavers_neg]
  · intro r hout
    rw [placed_of_le hout]
    exact iff_of_true rfl (not_wavers_of_le hout)

theorem roundPlaces_roundPlaces_iff (places : Nat) (x : Float) :
    roundPlaces places (roundPlaces places x) = roundPlaces places x ↔
      ¬Wavers places (toRat (roundPlaces places x)) := by
  cases hx : x.isFinite with
  | true =>
      obtain ⟨hfinite, hvalue, hsign⟩ := roundPlaces_spec places hx
      obtain ⟨hfinite', hvalue', hsign'⟩ := roundPlaces_spec places hfinite
      rw [hvalue] at hvalue' ⊢
      rw [← placed_placed_iff]
      constructor
      · intro h
        rw [← hvalue', h, hvalue]
      · intro h
        exact eq_of_toRat_eq hfinite' hfinite hsign' hsign (by rw [hvalue', h, hvalue])
  | false =>
      rw [roundPlaces_of_not_finite places hx, roundPlaces_of_not_finite places hx,
        toRat_of_not_finite hx]
      exact iff_of_true rfl (not_wavers_zero places)

/-! ## Few places and many -/

/-- Tenths are counted with an error of at most a quarter.  Below `2 ^ 48` it is at most `5 / 32`;
from there on the counts are eighths, and none lies above a quarter and within the largest error,
`5 / 16`. -/
theorem restepped_one_le {n : Int} (hlow : 2 ^ 51 ≤ n) (hhigh : n < 2 ^ 52) :
    restepped 1 n ≤ n + 1 / 4 := by
  have hlow' : (2 : Rat) ^ 51 ≤ n := by exact_mod_cast hlow
  have hhigh' : (n : Rat) < 2 ^ 52 := by exact_mod_cast hhigh
  have hten : ((steps 1 : Nat) : Rat) = 10 := by norm_num [steps, mostPlaces]
  have herror := abs_le.mp (abs_sub_rounded_le_half ((n : Rat) / 10))
  rw [restepped, hten]
  rcases lt_or_ge ((n : Rat) / 10) (2 ^ 48) with hbelow | habove
  · have hunit : unitExponent ((n : Rat) / 10) = -5 :=
      unitExponent_of_binade (by norm_num) (by norm_num; linarith)
        (hbelow.trans_eq (by norm_num))
    rw [hunit] at herror
    norm_num at herror
    linarith
  · have hunit : unitExponent ((n : Rat) / 10) = -4 :=
      unitExponent_of_binade (by norm_num) (habove.trans_eq' (by norm_num))
        (by norm_num; linarith)
    obtain ⟨k, hk⟩ : ∃ k : Int, rounded ((n : Rat) / 10) = k / 16 := by
      refine ⟨roundEven (measure ((n : Rat) / 10)), ?_⟩
      rw [rounded, hunit]
      norm_num
      ring
    rw [hunit] at herror
    norm_num at herror
    rw [hk] at herror ⊢
    by_contra hgt
    rw [not_le] at hgt
    have hcount : (2 : Rat) < ((5 * k - 8 * n : Int) : Rat) ∧
        ((5 * k - 8 * n : Int) : Rat) < 3 := by
      push_cast
      constructor <;> linarith
    have hcount' : 2 < 5 * k - 8 * n ∧ 5 * k - 8 * n < 3 := by exact_mod_cast hcount
    omega

theorem not_wavers_of_le_one {places : Nat} (h : places ≤ 1) (q : Rat) :
    ¬Wavers places (placed places q) := by
  refine placed_induction (not_wavers_zero places) ?_ (fun r => (wavers_neg places r).not.mpr)
    (fun r => not_wavers_of_le) q
  intro n hn hrep
  rw [wavers_iff places hn]
  rintro ⟨hlow, hhigh, hgt⟩
  obtain rfl | rfl : places = 0 ∨ places = 1 := by omega
  · have hone : ((steps 0 : Nat) : Rat) = 1 := by norm_num [steps]
    rw [restepped, hone, div_one, mul_one, rounded_of_representable hrep] at hgt
    linarith
  · exact absurd (restepped_one_le hlow hhigh) (not_le.mpr hgt)

theorem roundPlaces_min (places : Nat) (x : Float) :
    roundPlaces (min places mostPlaces) x = roundPlaces places x := by
  rw [roundPlaces, scale, min_assoc, min_self, ← scale, ← roundPlaces]

/-- For every number of places from two on, a number that changes when it is rounded again: next to
the power of two that comes to between `2 ^ 51` and `2 ^ 52` steps. -/
def changing : Nat → Float
  | 2 => 35184372088832.016
  | 3 => 4398046511104.0205
  | 4 => 274877906944.00037
  | 5 => 34359738368.000015
  | 6 => 4294967296.0000105
  | 7 => 268435456.00000167
  | 8 => 33554432.000000186
  | 9 => 4194304.0000000065
  | 10 => 262144.00000000227
  | 11 => 32768.000000000065
  | 12 => 4096.0000000000055
  | 13 => 256.00000000000017
  | 14 => 32.000000000000036
  | _ => 4.0000000000000036

theorem roundPlaces_changing : ∀ places, 2 ≤ places → places ≤ mostPlaces →
    roundPlaces places (roundPlaces places (changing places)) ≠
      roundPlaces places (changing places) := by
  have hcases : ∀ places ∈ List.range' 2 14,
      roundPlaces places (roundPlaces places (changing places)) ≠
        roundPlaces places (changing places) := by decide +kernel
  intro places h h'
  exact hcases places (List.mem_range'_1.mpr ⟨h, Nat.lt_succ_of_le h'⟩)

end Reckoner.Binary64

namespace Reckoner

open Binary64

/-- **When rounding twice is rounding once.**  A rounded number changes when it is rounded again
exactly if it wavers.  So every rounded number stays as it is if there is at most one place, and
for no other precision. -/
theorem round_round_iff (s : Settings) :
    (∀ x : Float, s.round (s.round x) = s.round x ↔ ¬Wavers s.precision (toRat (s.round x))) ∧
    ((∀ x : Float, s.round (s.round x) = s.round x) ↔ s.precision ≤ 1) := by
  refine ⟨roundPlaces_roundPlaces_iff s.precision, fun hall => ?_, fun hfew x => ?_⟩
  · by_contra hmany
    have hplaces : 2 ≤ min s.precision mostPlaces := le_min (by omega) (by decide)
    refine roundPlaces_changing _ hplaces (min_le_right _ _) ?_
    simp only [roundPlaces_min]
    exact hall _
  · refine (roundPlaces_roundPlaces_iff s.precision x).mpr ?_
    cases hx : x.isFinite with
    | true =>
        rw [(roundPlaces_spec s.precision hx).2.1]
        exact not_wavers_of_le_one hfew _
    | false =>
        rw [roundPlaces_of_not_finite s.precision hx, toRat_of_not_finite hx]
        exact not_wavers_zero _

/-- With the default precision, hundred-thousandths above `2 ^ 35` move up at every rounding. -/
theorem round_not_idempotent :
    ¬∀ (s : Settings) (x : Float), s.round (s.round x) = s.round x := by
  intro h
  have hmoved : ({} : Settings).round (({} : Settings).round 34359738368.000015) ≠
      ({} : Settings).round 34359738368.000015 := by decide +kernel
  exact hmoved (h {} 34359738368.000015)

end Reckoner
