/-
# `Reckoner.Proofs.Binary64.Sign` — the sign bit

The first bit of a double is its sign.  It is clear exactly when the parts have no
minus (`toBits_lt_iff`; not-a-number has none).  Sums, products and quotients of doubles
without a minus have none either, and squares have none at all, so the sign of what is
computed from them is known without its value.
-/
import Reckoner.Proofs.Binary64.Order

namespace Reckoner.Binary64

open Float.Model (Format UnpackedFloat)
open Float.Model.UnpackedFloat

def Unsigned : UnpackedFloat → Prop
  | .infinity s | .zero s | .finite s .. => s = .positive
  | .notANumber => True

@[simp] theorem unsigned_notANumber : Unsigned .notANumber := trivial

@[simp] theorem unsigned_infinity {s : UnpackedFloat.Sign} :
    Unsigned (.infinity s) ↔ s = .positive := Iff.rfl

@[simp] theorem unsigned_zero {s : UnpackedFloat.Sign} :
    Unsigned (.zero s) ↔ s = .positive := Iff.rfl

@[simp] theorem unsigned_finite {s : UnpackedFloat.Sign} {m : Nat} {e : Int} {hm : 0 < m} :
    Unsigned (.finite s m e hm) ↔ s = .positive := Iff.rfl

/-! ## The first bit -/

theorem packComponents_lt_iff (s : UnpackedFloat.Sign) (e : BitVec 11) (f : BitVec 52) :
    (packComponents .binary64 s e f).toNat < 2 ^ 63 ↔ s = .positive := by
  have hmsb : ((s.toBitVec ++ e) ++ f : BitVec (1 + 11 + 52)).msb = s.toBitVec.msb := by
    rw [BitVec.msb_append, if_neg (by decide), BitVec.msb_append, if_neg (by decide)]
  have hlt : ((s.toBitVec ++ e) ++ f : BitVec (1 + 11 + 52)).toNat < 2 ^ 63 ↔
      s.toBitVec.msb = false := by
    rw [← hmsb, BitVec.msb_eq_false_iff_two_mul_lt]
    omega
  refine hlt.trans ?_
  cases s with
  | positive => exact iff_of_true rfl rfl
  | negative => exact iff_of_false (by decide) nofun

theorem pack_lt_iff (u : UnpackedFloat) : (pack .binary64 u).toNat < 2 ^ 63 ↔ Unsigned u := by
  cases u with
  | notANumber => exact iff_of_true (by decide) trivial
  | infinity s => exact packComponents_lt_iff s _ _
  | zero s => exact packComponents_lt_iff s _ _
  | finite s m e hm =>
      rw [pack]
      split
      · exact packComponents_lt_iff s _ _
      · split
        · exact packComponents_lt_iff s _ _
        · exact packComponents_lt_iff s _ _

/-- The sign bit is clear exactly when the parts have no minus. -/
theorem toBits_lt_iff (x : Float) : x.toBits.toNat < 2 ^ 63 ↔ Unsigned (parts x) := by
  have hpack := pack_lt_iff (parts x)
  rwa [parts, Float.Model.unpack, pack_unpack_of_valid x.toModel.valid] at hpack

theorem unsigned_pack {u : UnpackedFloat} (hu : Unsigned u) :
    Unsigned (parts (.ofModel (.pack u))) := (toBits_lt_iff _).mp ((pack_lt_iff u).mpr hu)

theorem toRat_nonneg_of_unsigned {x : Float} (hx : Unsigned (parts x)) : 0 ≤ toRat x := by
  cases hp : parts x with
  | finite s m e hm =>
      rw [hp] at hx
      obtain rfl := hx
      rw [toRat_of_positive hp]
      exact (magnitude_pos hm e).le
  | notANumber | infinity s | zero s => rw [toRat, hp]

/-! ## Operations -/

theorem unsigned_roundWithAccuracy (m : Nat) (e : Int) (a : Accuracy) :
    Unsigned (roundWithAccuracy .binary64 .positive m e a) := by
  simp only [roundWithAccuracy]
  split <;> rfl

theorem positive_mul_positive :
    (UnpackedFloat.Sign.positive * UnpackedFloat.Sign.positive) = .positive := rfl

theorem positive_div_positive :
    (UnpackedFloat.Sign.positive / UnpackedFloat.Sign.positive) = .positive := rfl

theorem mul_self_positive (s : UnpackedFloat.Sign) : s * s = .positive := by
  cases s <;> rfl

theorem unsigned_mul_self (u : UnpackedFloat) : Unsigned (u.mul .binary64 u) := by
  cases u <;> simp [UnpackedFloat.mul, mul_self_positive, unsigned_roundWithAccuracy]

theorem unsigned_normalize {n : Int} (hn : 0 ≤ n) (e : Int) :
    Unsigned (UnpackedFloat.normalize .binary64 n e .positive) := by
  rw [UnpackedFloat.normalize]
  split
  · rename_i h
    exact absurd (compare_lt_iff_lt.mp h) (not_lt.mpr hn)
  · exact rfl
  · exact unsigned_roundWithAccuracy _ _ _

theorem unsigned_ofNat (n : Nat) : Unsigned (UnpackedFloat.ofNat .binary64 n) :=
  unsigned_normalize (Int.natCast_nonneg n) 0

/-- A sum of doubles without a sign has none.  Negative zero may be the first of them. -/
theorem unsigned_add {u v : UnpackedFloat} (hu : Unsigned u ∨ u = .zero .negative)
    (hv : Unsigned v) : Unsigned (u.add .binary64 v) := by
  rcases hu with hu | rfl
  · cases u with
    | finite s m e hm =>
        obtain rfl := hu
        cases v with
        | finite r n f hn =>
            obtain rfl := hv
            exact unsigned_normalize (Int.add_nonneg (Int.natCast_nonneg _)
              (Int.natCast_nonneg _)) _
        | infinity r => simpa [UnpackedFloat.add] using hv
        | notANumber | zero r => simp [UnpackedFloat.add]
    | notANumber | infinity s | zero s => cases v <;> simp_all [UnpackedFloat.add]
  · cases v <;> simp_all [UnpackedFloat.add]

theorem unsigned_mul {u v : UnpackedFloat} (hu : Unsigned u) (hv : Unsigned v) :
    Unsigned (u.mul .binary64 v) := by
  cases u <;> cases v <;>
    simp_all [UnpackedFloat.mul, positive_mul_positive, unsigned_roundWithAccuracy]

theorem unsigned_div {u v : UnpackedFloat} (hu : Unsigned u) (hv : Unsigned v) :
    Unsigned (u.div .binary64 v) := by
  cases u <;> cases v <;>
    simp_all [UnpackedFloat.div, positive_div_positive, unsigned_roundWithAccuracy]

end Reckoner.Binary64
