/-
# `Reckoner.Proofs.Binary64.Range` — leaving the range

What has left the range of finite doubles does not come back by a sum, a difference or a
product with anything, nor by a division of it (`not_finite_add` and the lemmas after
it).  So a chain of operations has a finite result only if every step has one, and of
each step `isFinite_add_iff` and its companions say when that is.
-/
import Reckoner.Proofs.Binary64.Scientific

namespace Reckoner.Binary64

open Float.Model (Format UnpackedFloat totalExponent)
open Float.Model.UnpackedFloat

/-! ## What is not finite -/

theorem not_finite_cases {u : UnpackedFloat} (hu : u.isFinite = false) :
    u = .notANumber ∨ ∃ s, u = .infinity s := by
  cases u with
  | notANumber => exact Or.inl rfl
  | infinity s => exact Or.inr ⟨s, rfl⟩
  | zero s | finite s m e hm => exact Bool.noConfusion hu

theorem eq_of_isNaN {x y : Float} (hx : x.isNaN = true) (hy : y.isNaN = true) : x = y := by
  have hparts : ∀ {z : Float}, z.isNaN = true → parts z = .notANumber := by
    intro z hz
    have hz : (parts z).isNaN = true := hz
    cases hp : parts z with
    | notANumber => rfl
    | infinity s | zero s | finite s m e hm =>
        rw [hp] at hz
        exact nomatch hz
  exact parts_injective ((hparts hx).trans (hparts hy).symm)

theorem toRat_of_not_finite {x : Float} (hx : x.isFinite = false) : toRat x = 0 := by
  rcases not_finite_cases hx with h | ⟨s, h⟩ <;> rw [toRat, parts, h]

theorem isFinite_pack_of_not_finite {u : UnpackedFloat} (hu : u.isFinite = false) :
    (Float.ofModel (.pack u)).isFinite = false := by
  show (parts _).isFinite = false
  rcases not_finite_cases hu with rfl | ⟨s, rfl⟩
  · rfl
  · cases s <;> rfl

theorem not_finite_operation {f : UnpackedFloat → UnpackedFloat → UnpackedFloat}
    (hnan : ∀ v, (f .notANumber v).isFinite = false)
    (hinfinity : ∀ s v, (f (.infinity s) v).isFinite = false) {x : Float}
    (hx : x.isFinite = false) (y : Float) :
    (Float.ofModel (.pack (f (parts x) (parts y)))).isFinite = false := by
  apply isFinite_pack_of_not_finite
  have hparts : (parts x).isFinite = false := hx
  rcases not_finite_cases hparts with h | ⟨s, h⟩
  · rw [h]
    exact hnan _
  · rw [h]
    exact hinfinity s _

section NotFinite

variable {x : Float} (hx : x.isFinite = false) (y : Float)

include hx

theorem not_finite_add : (x + y).isFinite = false := by
  refine not_finite_operation (f := fun u v => u.add .binary64 v) (fun _ => rfl) ?_ hx y
  intro s v
  cases v with
  | infinity r => cases s <;> cases r <;> rfl
  | notANumber | zero r | finite r m e hm => rfl

theorem not_finite_sub : (x - y).isFinite = false := by
  refine not_finite_operation (f := fun u v => u.sub .binary64 v) (fun _ => rfl) ?_ hx y
  intro s v
  cases v with
  | infinity r => cases s <;> cases r <;> rfl
  | notANumber | zero r | finite r m e hm => rfl

theorem not_finite_mul : (x * y).isFinite = false := by
  refine not_finite_operation (f := fun u v => u.mul .binary64 v) (fun _ => rfl) ?_ hx y
  intro s v
  cases v <;> rfl

theorem not_finite_div : (x / y).isFinite = false := by
  refine not_finite_operation (f := fun u v => u.div .binary64 v) (fun _ => rfl) ?_ hx y
  intro s v
  cases v <;> rfl

end NotFinite

/-! ## Operations step by step

With a finite second operand, a result is finite exactly if the first operand is and the exact
result stays below the overflow bound; then it is the exact result, rounded. -/

theorem isFinite_iff_of_nearest {x z : Float} {q : Rat}
    (hlost : x.isFinite = false → z.isFinite = false)
    (hnearest : x.isFinite = true → Nearest z q) :
    z.isFinite = true ↔ x.isFinite = true ∧ |q| < overflowBound := by
  cases hx : x.isFinite with
  | true => rw [(hnearest hx).isFinite_iff, and_iff_right rfl]
  | false =>
      rw [hlost hx]
      exact iff_of_false Bool.false_ne_true fun h => Bool.false_ne_true h.1

section Operations

variable {x y : Float} (hy : y.isFinite = true)

include hy

theorem isFinite_add_iff :
    (x + y).isFinite = true ↔ x.isFinite = true ∧ |toRat x + toRat y| < overflowBound :=
  isFinite_iff_of_nearest (fun hx => not_finite_add hx y) fun hx => nearest_add hx hy

theorem toRat_add (h : (x + y).isFinite = true) : toRat (x + y) = rounded (toRat x + toRat y) :=
  (nearest_add ((isFinite_add_iff hy).mp h).1 hy).toRat_eq h

theorem isFinite_sub_iff :
    (x - y).isFinite = true ↔ x.isFinite = true ∧ |toRat x - toRat y| < overflowBound :=
  isFinite_iff_of_nearest (fun hx => not_finite_sub hx y) fun hx => nearest_sub hx hy

theorem toRat_sub (h : (x - y).isFinite = true) : toRat (x - y) = rounded (toRat x - toRat y) :=
  (nearest_sub ((isFinite_sub_iff hy).mp h).1 hy).toRat_eq h

theorem isFinite_mul_iff :
    (x * y).isFinite = true ↔ x.isFinite = true ∧ |toRat x * toRat y| < overflowBound :=
  isFinite_iff_of_nearest (fun hx => not_finite_mul hx y) fun hx => nearest_mul hx hy

theorem toRat_mul (h : (x * y).isFinite = true) : toRat (x * y) = rounded (toRat x * toRat y) :=
  (nearest_mul ((isFinite_mul_iff hy).mp h).1 hy).toRat_eq h

variable (hne : toRat y ≠ 0)

include hne

theorem isFinite_div_iff :
    (x / y).isFinite = true ↔ x.isFinite = true ∧ |toRat x / toRat y| < overflowBound :=
  isFinite_iff_of_nearest (fun hx => not_finite_div hx y) fun hx => nearest_div hx hy hne

theorem toRat_div (h : (x / y).isFinite = true) : toRat (x / y) = rounded (toRat x / toRat y) :=
  (nearest_div ((isFinite_div_iff hy hne).mp h).1 hy hne).toRat_eq h

end Operations

/-! ## The largest double -/

def greatest : Float := ofParts .positive (2 ^ 53 - 1) 971

theorem isFinite_greatest : greatest.isFinite = true :=
  (ofParts_exact .positive (n := 2 ^ 53 - 1) (e := 971) (by norm_num) (by norm_num)
    (by norm_num)).1

theorem toRat_greatest : toRat greatest = largest := by
  have hvalue := (ofParts_exact .positive (n := 2 ^ 53 - 1) (e := 971) (by norm_num)
    (by norm_num) (by norm_num)).2
  refine hvalue.trans ?_
  rw [UnpackedFloat.Sign.apply, largest]
  norm_num

theorem abs_toRat_le_largest {x : Float} (hx : x.isFinite = true) : |toRat x| ≤ largest := by
  have hself := nearest_self hx
  rw [hself.toRat_eq hx]
  exact abs_rounded_le_largest (hself.isFinite_iff.mp hx)

/-! ## Natural numbers -/

/-- A natural number of any size becomes the nearest double. -/
theorem nearest_ofNat (n : Nat) : Nearest (Float.ofNat n) n := by
  have hnearest := nearest_ofScientific n false 0
  rwa [signedPower, if_neg Bool.false_ne_true, Nat.cast_zero, zpow_zero, mul_one] at hnearest

/-- A division by a natural number leaves the range nowhere, and comes back from nowhere; not even
where the number itself is too large for a double. -/
theorem isFinite_div_ofNat (x : Float) {n : Nat} (hn : 0 < n) :
    (x / Float.ofNat n).isFinite = x.isFinite := by
  cases hx : x.isFinite with
  | false => exact not_finite_div hx _
  | true =>
      have hnearest := nearest_ofNat n
      cases hd : (Float.ofNat n).isFinite with
      | true =>
          have hone : (1 : Rat) ≤ toRat (Float.ofNat n) := by
            have hn' : (1 : Rat) ≤ n := by exact_mod_cast hn
            rw [hnearest.toRat_eq hd]
            exact representable_one.le_rounded hn'
          have hpos : 0 < toRat (Float.ofNat n) := one_pos.trans_le hone
          rw [isFinite_div_iff hd hpos.ne', abs_div, abs_of_pos hpos]
          exact ⟨hx, (div_le_self (abs_nonneg _) hone).trans_lt
            ((nearest_self hx).isFinite_iff.mp hx)⟩
      | false =>
          obtain ⟨s, hs⟩ : ∃ s, parts (Float.ofNat n) = .infinity s := by
            refine (not_finite_cases hd).resolve_left fun h => ?_
            have hnan : (parts (Float.ofNat n)).isNaN = false := hnearest.isNaN_eq
            rw [parts, h] at hnan
            exact Bool.noConfusion hnan
          rw [div_eq, hs]
          show (parts _).isFinite = true
          rcases finite_cases hx with ⟨r, hp⟩ | ⟨r, m, e, hm, hp⟩
          · rw [hp, UnpackedFloat.div, parts_pack_zero]
            rfl
          · rw [hp, UnpackedFloat.div, parts_pack_zero]
            rfl

end Reckoner.Binary64
