/-
# `Reckoner.Proofs.Binary64.Canonical` — the parts of a finite double

A finite double other than zero has one significand and one exponent that stand for
it: the significand has 53 bits, unless the exponent is the least there is.
`canonical_of_parts` says that the parts of every double have this form, and
`Canonical.parts_pack` that every pair of this form is the parts of a double.  So
parts and doubles correspond (`parts_injective`), and whatever is to be shown of a
finite double may be shown of its parts.
-/
import Mathlib
import Reckoner.Binary64.Basic

namespace Reckoner.Binary64

open Float.Model (Format UnpackedFloat)
open Float.Model.UnpackedFloat

/-- The significand and the exponent of a finite double other than zero. -/
structure Canonical (m : Nat) (e : Int) : Prop where
  pos : 0 < m
  lt : m < 2 ^ 53
  least : -1074 ≤ e
  most : e ≤ 971
  full : 2 ^ 52 ≤ m ∨ e = -1074

/-! ## Unpacking -/

theorem toNat_one_append (f : BitVec 52) : (1#1 ++ f).toNat = 2 ^ 52 + f.toNat := by
  rw [BitVec.toNat_append, ← Nat.shiftLeft_add_eq_or_of_lt f.isLt]
  rfl

theorem canonical_of_unpack {b : BitVec 64} {s : UnpackedFloat.Sign} {m : Nat} {e : Int}
    {hm : 0 < m} (hu : unpack .binary64 b = .finite s m e hm) : Canonical m e := by
  have hf : (@unpackMantissa .binary64 b).toNat < 2 ^ 52 := BitVec.isLt _
  have hx : (@unpackExponent .binary64 b).toNat < 2 ^ 11 := BitVec.isLt _
  simp only [unpack] at hu
  split at hu
  · split at hu <;> exact nomatch hu
  rename_i htop
  split at hu
  · rename_i hzero
    split at hu
    · exact nomatch hu
    · obtain ⟨-, rfl, rfl⟩ := UnpackedFloat.finite.inj hu
      rw [hzero]
      exact ⟨hm, by omega, by decide, by decide, Or.inr rfl⟩
  · rename_i hzero
    obtain ⟨-, rfl, rfl⟩ := UnpackedFloat.finite.inj hu
    have hlow : (@unpackExponent .binary64 b).toNat ≠ 0 :=
      fun h => hzero (BitVec.eq_of_toNat_eq h)
    have hhigh : (@unpackExponent .binary64 b).toNat ≠ 2047 :=
      fun h => htop (BitVec.eq_of_toNat_eq h)
    have hbias : (Format.exponentBias .binary64 : Int) + (52 : Nat) = 1075 := rfl
    rw [toNat_one_append, hbias]
    exact ⟨by omega, by omega, by omega, by omega, Or.inl (by omega)⟩

theorem canonical_of_parts {x : Float} {s : UnpackedFloat.Sign} {m : Nat} {e : Int} {hm : 0 < m}
    (hx : parts x = .finite s m e hm) : Canonical m e := canonical_of_unpack hx

/-! ## Packing -/

theorem unpackSign_packComponents (s : UnpackedFloat.Sign) (e : BitVec 11) (f : BitVec 52) :
    UnpackedFloat.Sign.ofBitVec (@unpackSign .binary64 (packComponents .binary64 s e f)) = s := by
  have hbits : @unpackSign .binary64 (packComponents .binary64 s e f) = s.toBitVec := by
    show BitVec.extractLsb' 63 1 ((s.toBitVec ++ e) ++ f) = _
    rw [BitVec.extractLsb'_append_eq_of_le (by decide)]
    exact BitVec.extractLsb'_append_eq_left
  rw [hbits]
  cases s <;> rfl

theorem finite_congr {s : UnpackedFloat.Sign} {m n : Nat} {e f : Int} {hm : 0 < m} {hn : 0 < n}
    (h : m = n) (h' : e = f) : UnpackedFloat.finite s m e hm = .finite s n f hn := by
  subst h h'
  rfl

theorem ofNat_ne {w k : Nat} {b : BitVec w} (hk : k < 2 ^ w) (h : k ≠ b.toNat) :
    BitVec.ofNat w k ≠ b := by
  rintro rfl
  exact h (Nat.mod_eq_of_lt hk).symm

/-- Unpacking a double whose leading bit is implicit. -/
theorem unpack_normal (s : UnpackedFloat.Sign) {k f : Nat} (hk : 0 < k) (hk' : k < 2047)
    (hf : f < 2 ^ 52) :
    unpack .binary64 (packComponents .binary64 s (BitVec.ofNat 11 k) (BitVec.ofNat 52 f))
      = .finite s (2 ^ 52 + f) (k - 1075) (by omega) := by
  have hexponent : (BitVec.ofNat 11 k).toNat = k := Nat.mod_eq_of_lt (by omega)
  have hmantissa : (BitVec.ofNat 52 f).toNat = f := Nat.mod_eq_of_lt hf
  have htop : BitVec.ofNat 11 k ≠ -1#11 := ofNat_ne (by omega) (by show k ≠ 2047; omega)
  have hzero : BitVec.ofNat 11 k ≠ 0#11 := ofNat_ne (by omega) (by show k ≠ 0; omega)
  simp only [unpack, unpackExponent_packComponents, unpackMantissa_packComponents,
    unpackSign_packComponents, if_neg htop, if_neg hzero]
  apply finite_congr
  · rw [toNat_one_append, hmantissa]
  · rw [hexponent]
    rfl

/-- Unpacking a double with the least exponent and no leading bit. -/
theorem unpack_subnormal (s : UnpackedFloat.Sign) {f : Nat} (hf : 0 < f) (hf' : f < 2 ^ 52) :
    unpack .binary64 (packComponents .binary64 s 0#11 (BitVec.ofNat 52 f))
      = .finite s f (-1074) hf := by
  have hmantissa : (BitVec.ofNat 52 f).toNat = f := Nat.mod_eq_of_lt hf'
  have hne : BitVec.ofNat 52 f ≠ 0#52 := ofNat_ne hf' (by show f ≠ 0; omega)
  have htop : (0#11) ≠ -1#11 := by decide
  simp only [unpack, unpackExponent_packComponents, unpackMantissa_packComponents,
    unpackSign_packComponents, if_neg htop, if_true, dif_neg hne]
  exact finite_congr hmantissa rfl

theorem Canonical.parts_pack {m : Nat} {e : Int} (h : Canonical m e) (s : UnpackedFloat.Sign) :
    parts (.ofModel (.pack (.finite s m e h.pos))) = .finite s m e h.pos := by
  obtain ⟨hpos, hlt, hleast, hmost, hfull⟩ := h
  have hbias : (Format.exponentBias .binary64 : Int) = 1023 := rfl
  have hbits : (Format.binary64.mantissaBitsWithoutImplicit : Int) = 52 := rfl
  show unpack .binary64 (pack .binary64 (.finite s m e hpos)) = _
  rw [pack, hbias, hbits, if_neg (by show ¬ 2048 ≤ _; omega)]
  by_cases hm : 2 ^ 52 ≤ m
  · have hlog : m.log2 = 52 := (Nat.log2_eq_iff (by omega)).mpr ⟨hm, hlt⟩
    have hlow : BitVec.ofNat 52 m = BitVec.ofNat 52 (m - 2 ^ 52) := by
      apply BitVec.eq_of_toNat_eq
      rw [BitVec.toNat_ofNat, BitVec.toNat_ofNat]
      omega
    rw [if_pos (by rw [hlog]; rfl)]
    erw [hlow, unpack_normal s (by omega) (by omega) (by omega)]
    exact finite_congr (by omega) (by omega)
  · obtain rfl : e = -1074 := hfull.resolve_left hm
    have hlog : m.log2 < 52 := (Nat.log2_lt (by omega)).mpr (by omega)
    rw [if_neg (by show m.log2 + 1 ≠ 53; omega)]
    exact unpack_subnormal s hpos (by omega)

theorem parts_pack_zero (s : UnpackedFloat.Sign) :
    parts (.ofModel (.pack (.zero s))) = .zero s := by
  cases s <;> rfl

theorem pack_parts (x : Float) : Float.ofModel (.pack (parts x)) = x := by
  obtain ⟨⟨b, hb⟩⟩ := x
  show Float.ofModel ⟨⟨pack .binary64 (unpack .binary64 b.toBitVec)⟩, _⟩ = _
  simp only [pack_unpack_of_valid hb]

theorem parts_injective {x y : Float} (h : parts x = parts y) : x = y := by
  rw [← pack_parts x, h, pack_parts y]

end Reckoner.Binary64
