/-
# `Reckoner.Proofs.Token.Characters` — the characters of tokens

Every token of the grammar is made of visible ASCII characters.  No blank is among
them, and a separator is a blank, so no separator stands inside a token.
-/
import Reckoner.Proofs.Token.Spelling
import Reckoner.Text.Blank

namespace Reckoner

theorem toNat_of_isDigit {c : Char} (h : c.isDigit = true) : 48 ≤ c.toNat ∧ c.toNat ≤ 57 :=
  Char.isDigit_iff_toNat.mp h

theorem toNat_of_isNamePart {c : Char} (h : isNamePart c = true) :
    48 ≤ c.toNat ∧ c.toNat ≤ 122 := by
  simp only [isNamePart, Char.isAlphanum, Bool.or_eq_true] at h
  rcases h with (h | h) | h
  · have := toNat_of_isNameStart (c := c) (by simp [isNameStart, h])
    omega
  · have := toNat_of_isDigit h
    omega
  · obtain rfl := eq_of_beq h
    decide

theorem Decimal.Literal.WellFormed.toNat_of_mem_text {l : Literal} (hl : l.WellFormed)
    {c : Char} (hc : c ∈ l.text) : 43 ≤ c.toNat ∧ c.toNat ≤ 101 := by
  have hdigit : c.isDigit = true → 43 ≤ c.toNat ∧ c.toNat ≤ 101 := by
    intro hd
    have := toNat_of_isDigit hd
    omega
  simp only [Literal.text, List.mem_append] at hc
  rcases hc with (hc | hc) | hc
  · exact hdigit (hl.whole.2 c hc)
  · cases hf : l.fraction with
    | nil => exact absurd hc (by simp [hf, fractionText])
    | cons d ds =>
        rw [hf, fractionText] at hc
        · rcases List.mem_cons.mp hc with rfl | hc
          · decide
          · exact hdigit (hl.fraction c (hf ▸ hc))
        · exact List.cons_ne_nil d ds
  · cases hx : l.exponent with
    | none => exact absurd hc (by simp [hx])
    | some x =>
        have hw := hl.exponent x hx
        simp only [hx, Option.map_some, Option.getD_some, Exponent.text, List.cons_append,
          List.mem_cons, List.mem_append] at hc
        rcases hc with rfl | hc | hc
        · rcases hw.mark with h | h <;> rw [h] <;> decide
        · rcases hw.sign with h | h | h <;> rw [h] at hc
          · exact absurd hc (by simp)
          · obtain rfl := List.mem_singleton.mp hc
            decide
          · obtain rfl := List.mem_singleton.mp hc
            decide
        · exact hdigit (hw.digits.2 c hc)

theorem Token.WellFormed.toNat_of_mem_name {x : String} (hx : (Token.name x).WellFormed) {c : Char}
    (hc : c ∈ x.toList) : 48 ≤ c.toNat ∧ c.toNat ≤ 122 := by
  obtain ⟨d, ds, hx, hd, hds⟩ := hx
  rw [hx] at hc
  rcases List.mem_cons.mp hc with rfl | hc
  · have := toNat_of_isNameStart hd
    omega
  · exact toNat_of_isNamePart (hds c hc)

/-- The characters of a token are visible ones, and only the two tokens made of stars have one. -/
theorem Token.WellFormed.of_mem_text {t : Token} (ht : t.WellFormed) {c : Char}
    (hc : c ∈ t.text) : 37 ≤ c.toNat ∧ c.toNat ≤ 122 ∧
      (c = '*' → t = .operator .multiply ∨ t = .operator .power) := by
  have hstar : 43 ≤ c.toNat → c ≠ '*' := by
    rintro h rfl
    exact absurd h (by decide)
  cases t with
  | number l =>
      have h := Decimal.Literal.WellFormed.toNat_of_mem_text ht hc
      exact ⟨by omega, by omega, fun heq => absurd heq (hstar h.1)⟩
  | name x =>
      have h := Token.WellFormed.toNat_of_mem_name ht hc
      exact ⟨by omega, by omega, fun heq => absurd heq (hstar (by omega))⟩
  | operator o =>
      rw [Token.text_operator] at hc
      cases o <;> simp only [List.mem_cons, List.not_mem_nil, or_false, or_self] at hc <;>
        subst hc <;> simp
  | openParen | closeParen | comma =>
      obtain rfl := List.mem_singleton.mp hc
      simp
  | stray d => exact ht.elim

theorem Token.WellFormed.isBlank_of_mem_text {t : Token} (ht : t.WellFormed) {c : Char}
    (hc : c ∈ t.text) : Text.isBlank c = false := by
  obtain ⟨h₁, h₂, _⟩ := ht.of_mem_text hc
  simp only [Text.isBlank, Text.blankRanges, List.any_cons, List.any_nil, Bool.or_false,
    Bool.or_eq_false_iff, Bool.and_eq_false_iff, decide_eq_false_iff_not]
  omega

theorem isBlank_of_isSeparator {c : Char} (hc : isSeparator c = true) :
    Text.isBlank c = true := by
  simp only [isSeparator, Bool.or_eq_true, beq_iff_eq] at hc
  rcases hc with ((rfl | rfl) | rfl) | rfl <;> rfl

theorem Token.WellFormed.isSeparator_of_mem_text {t : Token} (ht : t.WellFormed) {c : Char}
    (hc : c ∈ t.text) : isSeparator c = false := by
  rw [Bool.eq_false_iff]
  intro hsep
  exact absurd (isBlank_of_isSeparator hsep) (by simp [ht.isBlank_of_mem_text hc])

end Reckoner
