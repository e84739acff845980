/-
# `Reckoner.Proofs.Token.Spelling` — what a token looks like, and that it reads back

A token is *well formed* when its characters are those of the grammar: digits on
both sides of a point, a complete exponent, an ASCII name.  A stray character is
no token of the grammar and never well formed.

Two facts about `Token.first`, for a well-formed token at the front of a text:

* `first_text`: it is read back, unless the next character goes on with it;
* `length_rest_le`: whatever the next character is, the token that is read is at
  least as long.

For numbers both come from one description of each part of the reader: what it
makes of a part with anything behind it is the part, prolonged by the digits that
happen to follow.
-/
import Mathlib.Data.List.TakeWhile
import Reckoner.Token.Lexer

namespace Reckoner.Decimal

/-! ## Numbers, part by part -/

def IsDigits (ds : List Char) : Prop := ds ≠ [] ∧ ∀ c ∈ ds, c.isDigit = true

/-- A mark, at most one sign, and digits. -/
structure Exponent.WellFormed (x : Exponent) : Prop where
  mark : x.mark = 'e' ∨ x.mark = 'E'
  sign : x.sign = [] ∨ x.sign = ['+'] ∨ x.sign = ['-']
  digits : IsDigits x.digits

/-- Digits, possibly a point with digits behind it, possibly an exponent. -/
structure Literal.WellFormed (l : Literal) : Prop where
  whole : IsDigits l.whole
  fraction : ∀ c ∈ l.fraction, c.isDigit = true
  exponent : ∀ x, l.exponent = some x → x.WellFormed

theorem readFraction_digits {f : List Char} (hne : f ≠ []) (hf : ∀ c ∈ f, c.isDigit = true)
    (r : List Char) :
    readFraction ('.' :: (f ++ r))
      = (f ++ r.takeWhile Char.isDigit, r.dropWhile Char.isDigit) := by
  have hdigits : ((f ++ r).takeWhile Char.isDigit).isEmpty = false := by
    rw [List.takeWhile_append_of_pos hf]
    simp [hne]
  rw [readFraction, hdigits]
  rw [List.takeWhile_append_of_pos hf, List.dropWhile_append_of_pos hf]
  rfl

theorem readFraction_of_head_ne {r : List Char} (h : ∀ c ∈ r.head?, c ≠ '.') :
    readFraction r = ([], r) := by
  cases r with
  | nil => rfl
  | cons c cs =>
      have hc : c ≠ '.' := h c rfl
      unfold readFraction
      split
      · rename_i heq
        exact absurd (List.cons.inj heq).1 hc
      · rfl

theorem readSign_append_digits {sign ds : List Char}
    (hs : sign = [] ∨ sign = ['+'] ∨ sign = ['-']) (hd : IsDigits ds) (r : List Char) :
    readSign (sign ++ (ds ++ r)) = (sign, ds ++ r) := by
  rcases hs with rfl | rfl | rfl
  · obtain ⟨d, ds', rfl⟩ := List.exists_cons_of_ne_nil hd.1
    have hdigit : d.isDigit = true := hd.2 d List.mem_cons_self
    unfold readSign
    split
    · rename_i heq
      rw [(List.cons.inj heq).1] at hdigit
      exact absurd hdigit (by decide)
    · rename_i heq
      rw [(List.cons.inj heq).1] at hdigit
      exact absurd hdigit (by decide)
    · rfl
  · rfl
  · rfl

theorem readExponent_text {x : Exponent} (hx : x.WellFormed) (r : List Char) :
    readExponent (x.text ++ r)
      = (some { x with digits := x.digits ++ r.takeWhile Char.isDigit },
         r.dropWhile Char.isDigit) := by
  have hmark : (x.mark == 'e' || x.mark == 'E') = true := by
    rcases hx.mark with h | h <;> simp [h]
  have hdigits : (x.digits ++ r.takeWhile Char.isDigit).isEmpty = false := by
    simp [hx.digits.1]
  simp only [Exponent.text, List.cons_append, List.append_assoc, readExponent, hmark, if_true,
    readSign_append_digits hx.sign hx.digits r, List.takeWhile_append_of_pos hx.digits.2,
    List.dropWhile_append_of_pos hx.digits.2, hdigits]
  rfl

theorem readExponent_of_head_ne {r : List Char} (h : ∀ c ∈ r.head?, c ≠ 'e' ∧ c ≠ 'E') :
    readExponent r = (none, r) := by
  cases r with
  | nil => rfl
  | cons c cs =>
      have hc : (c == 'e' || c == 'E') = false := by simp [h c rfl]
      simp [readExponent, hc]

theorem Literal.read_digits {d : Char} {w : List Char} (hw : ∀ c ∈ w, c.isDigit = true)
    (r : List Char) :
    Literal.read d (w ++ r)
      = (⟨d :: (w ++ r.takeWhile Char.isDigit), (readFraction (r.dropWhile Char.isDigit)).1,
          (readExponent (readFraction (r.dropWhile Char.isDigit)).2).1⟩,
         (readExponent (readFraction (r.dropWhile Char.isDigit)).2).2) := by
  simp only [Literal.read, List.takeWhile_append_of_pos hw, List.dropWhile_append_of_pos hw]

theorem dropWhile_isDigit_of_head {r : List Char} (h : ∀ c ∈ r.head?, c.isDigit = false) :
    r.dropWhile Char.isDigit = r ∧ r.takeWhile Char.isDigit = [] := by
  cases r with
  | nil => exact ⟨rfl, rfl⟩
  | cons c cs =>
      have hc : c.isDigit = false := h c rfl
      simp [hc]

theorem length_readFraction_le (r : List Char) : (readFraction r).2.length ≤ r.length := by
  have h := congrArg List.length (readFraction_append r)
  rw [List.length_append] at h
  omega

theorem length_readExponent_le (r : List Char) : (readExponent r).2.length ≤ r.length := by
  have h := congrArg List.length (readExponent_append r)
  rw [List.length_append] at h
  omega

/-! ## Numbers as a whole

Behind the digits of the whole part stands the fraction, the exponent, or what
follows the literal.  The first two do not start with a digit, so only the third
can prolong the run, and then the literal ends there. -/

def exponentText (x : Option Exponent) : List Char := (x.map Exponent.text).getD []

theorem Literal.text_append (l : Literal) (r : List Char) :
    l.text ++ r = l.whole ++ (fractionText l.fraction ++ (exponentText l.exponent ++ r)) := by
  simp [Literal.text, exponentText, List.append_assoc]

theorem Exponent.WellFormed.head_text {x : Exponent} (hx : x.WellFormed) (r : List Char) :
    ∀ c ∈ (x.text ++ r).head?, c.isDigit = false ∧ c ≠ '.' := by
  intro c hc
  have hmark : c = x.mark := by simpa [Exponent.text] using hc.symm
  rcases hx.mark with h | h <;> rw [hmark, h] <;> decide

theorem fractionText_append {f : List Char} (hne : f ≠ []) (r : List Char) :
    fractionText f ++ r = '.' :: (f ++ r) := by
  cases f with
  | nil => exact absurd rfl hne
  | cons c f => rfl

theorem takeWhile_point (r : List Char) : ('.' :: r).takeWhile Char.isDigit = [] := rfl

theorem dropWhile_point (r : List Char) : ('.' :: r).dropWhile Char.isDigit = '.' :: r := rfl

theorem Literal.WellFormed.head_text {l : Literal} (hl : l.WellFormed) {c : Char}
    {cs r : List Char} (h : l.text ++ r = c :: cs) : c.isDigit = true := by
  obtain ⟨w, w', hw⟩ := List.exists_cons_of_ne_nil hl.whole.1
  rw [Literal.text_append, hw, List.cons_append] at h
  rw [← (List.cons.inj h).1]
  exact hl.whole.2 w (by simp [hw])

theorem Literal.read_text {l : Literal} (hl : l.WellFormed) {d : Char} {cs r : List Char}
    (h : l.text ++ r = d :: cs)
    (hr : ∀ c ∈ r.head?, c.isDigit = false ∧ c ≠ '.' ∧ c ≠ 'e' ∧ c ≠ 'E') :
    Literal.read d cs = (l, r) := by
  obtain ⟨whole, fraction, exponent⟩ := l
  obtain ⟨w, w', rfl⟩ := List.exists_cons_of_ne_nil hl.whole.1
  have hw : ∀ c ∈ w', c.isDigit = true := fun c hc => hl.whole.2 c (List.mem_cons_of_mem _ hc)
  rw [Literal.text_append, List.cons_append] at h
  obtain ⟨rfl, rfl⟩ := List.cons.inj h
  -- the exponent, or its absence, reads back and starts neither with a digit nor with a point
  have hexp : readExponent (exponentText exponent ++ r) = (exponent, r)
      ∧ ∀ c ∈ (exponentText exponent ++ r).head?, c.isDigit = false ∧ c ≠ '.' := by
    cases exponent with
    | none =>
        exact ⟨readExponent_of_head_ne fun c hc => (hr c hc).2.2,
          fun c hc => ⟨(hr c hc).1, (hr c hc).2.1⟩⟩
    | some x =>
        have hx := hl.exponent x rfl
        obtain ⟨hdrop, htake⟩ := dropWhile_isDigit_of_head fun c hc => (hr c hc).1
        have hread := readExponent_text hx r
        rw [hdrop, htake, List.append_nil] at hread
        exact ⟨hread, hx.head_text r⟩
  obtain ⟨hdrop, htake⟩ := dropWhile_isDigit_of_head fun c hc => (hexp.2 c hc).1
  rw [Literal.read_digits hw]
  by_cases hf : fraction = []
  · subst hf
    have hpoint := readFraction_of_head_ne fun c hc => (hexp.2 c hc).2
    simp only [fractionText, List.nil_append, hdrop, htake, List.append_nil, hpoint, hexp.1]
  · rw [fractionText_append hf, takeWhile_point, dropWhile_point,
      readFraction_digits hf hl.fraction]
    simp only [hdrop, htake, List.append_nil, hexp.1]

/-- The literal that is read is the longest: of all literals the text starts with, it leaves the
least. -/
theorem Literal.length_rest_le {l : Literal} (hl : l.WellFormed) {d : Char} {cs r : List Char}
    (h : l.text ++ r = d :: cs) : (Literal.read d cs).2.length ≤ r.length := by
  obtain ⟨whole, fraction, exponent⟩ := l
  obtain ⟨w, w', rfl⟩ := List.exists_cons_of_ne_nil hl.whole.1
  have hw : ∀ c ∈ w', c.isDigit = true := fun c hc => hl.whole.2 c (List.mem_cons_of_mem _ hc)
  rw [Literal.text_append, List.cons_append] at h
  obtain ⟨rfl, rfl⟩ := List.cons.inj h
  have hrest : (r.dropWhile Char.isDigit).length ≤ r.length :=
    (List.dropWhile_sublist _).length_le
  rw [Literal.read_digits hw]
  by_cases hf : fraction = []
  · subst hf
    cases exponent with
    | none =>
        refine Nat.le_trans (length_readExponent_le _) ?_
        exact Nat.le_trans (length_readFraction_le _) hrest
    | some x =>
        have hx := hl.exponent x rfl
        have hdrop := (dropWhile_isDigit_of_head fun c hc => (hx.head_text r c hc).1).1
        have hpoint := readFraction_of_head_ne fun c hc => (hx.head_text r c hc).2
        simp only [fractionText, List.nil_append, exponentText, Option.map_some,
          Option.getD_some, hdrop, hpoint, readExponent_text hx r]
        exact hrest
  · rw [fractionText_append hf, dropWhile_point, readFraction_digits hf hl.fraction]
    cases exponent with
    | none => exact Nat.le_trans (length_readExponent_le _) hrest
    | some x =>
        have hx := hl.exponent x rfl
        have hdrop := (dropWhile_isDigit_of_head fun c hc => (hx.head_text r c hc).1).1
        simp only [exponentText, Option.map_some, Option.getD_some, hdrop,
          readExponent_text hx r]
        exact hrest

/-! ## What is read is well formed -/

theorem isDigits_takeWhile {d : Char} (hd : d.isDigit = true) (cs : List Char) :
    IsDigits (d :: cs.takeWhile Char.isDigit) := by
  refine ⟨List.cons_ne_nil _ _, fun c hc => ?_⟩
  rcases List.mem_cons.mp hc with rfl | hc
  · exact hd
  · exact List.mem_takeWhile_imp hc

theorem isDigit_of_mem_readFraction {r : List Char} :
    ∀ c ∈ (readFraction r).1, c.isDigit = true := by
  intro c hc
  unfold readFraction at hc
  split at hc
  · split at hc
    · exact absurd hc List.not_mem_nil
    · exact List.mem_takeWhile_imp hc
  · exact absurd hc List.not_mem_nil

theorem wellFormed_of_readExponent {r : List Char} {x : Exponent}
    (h : (readExponent r).1 = some x) : x.WellFormed := by
  cases r with
  | nil => exact absurd h (by simp [readExponent])
  | cons c cs =>
      simp only [readExponent] at h
      split at h
      · rename_i hmark
        split at h
        · exact absurd h (by simp)
        · rename_i hdigits
          obtain rfl : _ = x := Option.some.inj h
          refine ⟨by simpa using hmark, ?_, by simpa using hdigits, fun c hc => ?_⟩
          · unfold readSign
            split <;> simp
          · exact List.mem_takeWhile_imp hc
      · exact absurd h (by simp)

theorem Literal.wellFormed_read {d : Char} (hd : d.isDigit = true) (cs : List Char) :
    (Literal.read d cs).1.WellFormed where
  whole := isDigits_takeWhile hd cs
  fraction := isDigit_of_mem_readFraction
  exponent := fun _ h => wellFormed_of_readExponent h

end Reckoner.Decimal

namespace Reckoner

/-! ## Tokens -/

/-- The characters of the token are those of the grammar. -/
def Token.WellFormed : Token → Prop
  | .number l => l.WellFormed
  | .name x => ∃ c cs, x.toList = c :: cs ∧ isNameStart c = true ∧ ∀ d ∈ cs, isNamePart d = true
  | .stray _ => False
  | .operator _ | .openParen | .closeParen | .comma => True

/-- The character, if it stood behind the token, might belong to a longer one. -/
def Token.continuesWith : Token → Char → Bool
  | .number _, c => c.isDigit || c == '.' || c == 'e' || c == 'E'
  | .name _, c => isNamePart c
  | .operator .multiply, c => c == '*'
  | _, _ => false

theorem toNat_of_isNameStart {c : Char} (h : isNameStart c = true) :
    65 ≤ c.toNat ∧ c.toNat ≤ 90 ∨ c.toNat = 95 ∨ 97 ≤ c.toNat ∧ c.toNat ≤ 122 := by
  have h : (decide (65 ≤ c.val ∧ c.val ≤ 90) ||
      (decide (97 ≤ c.val) && decide (c.val ≤ 122)) || c == '_') = true := h
  simp only [Bool.or_eq_true, Bool.and_eq_true, decide_eq_true_eq, beq_iff_eq,
    UInt32.le_iff_toNat_le] at h
  rcases h with (⟨h₁, h₂⟩ | ⟨h₁, h₂⟩) | rfl
  · exact Or.inl ⟨h₁, h₂⟩
  · exact Or.inr (Or.inr ⟨h₁, h₂⟩)
  · exact Or.inr (Or.inl rfl)

theorem isDigit_eq_false_of_isNameStart {c : Char} (h : isNameStart c = true) :
    c.isDigit = false := by
  have hc := toNat_of_isNameStart h
  rw [Bool.eq_false_iff]
  intro hd
  obtain ⟨h₁, h₂⟩ := Char.isDigit_iff_toNat.mp hd
  have h₁ : 48 ≤ c.toNat := h₁
  have h₂ : c.toNat ≤ 57 := h₂
  omega

theorem Token.first_digit {c : Char} (hc : c.isDigit = true) (cs : List Char) :
    Token.first c cs = (.number (Decimal.Literal.read c cs).1, (Decimal.Literal.read c cs).2) := by
  simp [Token.first, hc]

theorem Token.first_name {c : Char} (hc : isNameStart c = true) (cs : List Char) :
    Token.first c cs
      = (.name (String.ofList (c :: cs.takeWhile isNamePart)), cs.dropWhile isNamePart) := by
  simp [Token.first, hc, isDigit_eq_false_of_isNameStart hc]

theorem Token.first_star_of_head_ne {cs : List Char} (h : ∀ c ∈ cs.head?, c ≠ '*') :
    Token.first '*' cs = (.operator .multiply, cs) := by
  cases cs with
  | nil => rfl
  | cons c cs =>
      have hc : c ≠ '*' := h c rfl
      simp [Token.first, isNameStart, hc]

theorem Token.text_operator (o : Operator) :
    (Token.operator o).text = match o with
      | .add => ['+']
      | .subtract => ['-']
      | .multiply => ['*']
      | .divide => ['/']
      | .modulo => ['%']
      | .power => ['*', '*'] := by
  cases o <;> simp [Token.text, Operator.symbol]

theorem Token.first_text {t : Token} (ht : t.WellFormed) {c : Char} {cs r : List Char}
    (h : t.text ++ r = c :: cs) (hr : ∀ d ∈ r.head?, t.continuesWith d = false) :
    Token.first c cs = (t, r) := by
  cases t with
  | number l =>
      have hc : c.isDigit = true := Decimal.Literal.WellFormed.head_text ht h
      have hread := Decimal.Literal.read_text ht h fun d hd => by
        simpa [Token.continuesWith, and_assoc] using hr d hd
      rw [Token.first_digit hc, hread]
  | name x =>
      obtain ⟨d, ds, hx, hd, hds⟩ := ht
      rw [Token.text, hx, List.cons_append] at h
      obtain ⟨rfl, rfl⟩ := List.cons.inj h
      have hend : r.takeWhile isNamePart = [] ∧ r.dropWhile isNamePart = r := by
        cases r with
        | nil => exact ⟨rfl, rfl⟩
        | cons a r =>
            have ha : isNamePart a = false := hr a rfl
            simp [ha]
      rw [Token.first_name hd, List.takeWhile_append_of_pos hds, List.dropWhile_append_of_pos hds,
        hend.1, hend.2, List.append_nil, ← hx, String.ofList_toList]
  | operator o =>
      rw [Token.text_operator] at h
      cases o with
      | multiply =>
          obtain ⟨rfl, rfl⟩ := List.cons.inj h
          exact Token.first_star_of_head_ne fun d hd => by
            simpa [Token.continuesWith] using hr d hd
      | add | subtract | divide | modulo | power => obtain ⟨rfl, rfl⟩ := List.cons.inj h; rfl
  | openParen | closeParen | comma => obtain ⟨rfl, rfl⟩ := List.cons.inj h; rfl
  | stray a => exact absurd ht id

theorem Token.WellFormed.text_ne_nil {t : Token} (ht : t.WellFormed) : t.text ≠ [] := by
  cases t with
  | number l =>
      obtain ⟨w, w', hw⟩ := List.exists_cons_of_ne_nil ht.whole.1
      simp [Token.text, Decimal.Literal.text, hw]
  | name x =>
      obtain ⟨d, ds, hx, -⟩ := ht
      simp [Token.text, hx]
  | operator o => cases o <;> simp [Token.text_operator]
  | openParen | closeParen | comma => exact List.cons_ne_nil _ _
  | stray a => exact absurd ht id

theorem Token.text_injective {t u : Token} (ht : t.WellFormed) (hu : u.WellFormed)
    (h : t.text = u.text) : t = u := by
  obtain ⟨c, cs, htext⟩ := List.exists_cons_of_ne_nil ht.text_ne_nil
  have htRead := Token.first_text ht (r := []) (by rw [List.append_nil, htext]) (by simp)
  have huRead := Token.first_text hu (r := []) (by rw [List.append_nil, ← h, htext]) (by simp)
  exact congrArg Prod.fst (htRead.symm.trans huRead)

theorem Token.length_rest_le {t : Token} (ht : t.WellFormed) {c : Char} {cs r : List Char}
    (h : t.text ++ r = c :: cs) :
    (Token.first c cs).1.WellFormed ∧ (Token.first c cs).2.length ≤ r.length := by
  cases t with
  | number l =>
      have hc : c.isDigit = true := Decimal.Literal.WellFormed.head_text ht h
      rw [Token.first_digit hc]
      exact ⟨Decimal.Literal.wellFormed_read hc cs, Decimal.Literal.length_rest_le ht h⟩
  | name x =>
      obtain ⟨d, ds, hx, hd, hds⟩ := ht
      rw [Token.text, hx, List.cons_append] at h
      obtain ⟨rfl, rfl⟩ := List.cons.inj h
      rw [Token.first_name hd, List.dropWhile_append_of_pos hds]
      refine ⟨⟨d, _, String.toList_ofList, hd, fun a ha => List.mem_takeWhile_imp ha⟩, ?_⟩
      exact (List.dropWhile_sublist _).length_le
  | operator o =>
      rw [Token.text_operator] at h
      cases o with
      | multiply =>
          obtain ⟨rfl, rfl⟩ := List.cons.inj h
          show (Token.first '*' r).1.WellFormed ∧ (Token.first '*' r).2.length ≤ r.length
          -- a second star makes it a power, which is longer still
          by_cases hr : ∀ d ∈ r.head?, d ≠ '*'
          · rw [Token.first_star_of_head_ne hr]
            exact ⟨trivial, Nat.le_refl _⟩
          · cases r with
            | nil => exact absurd (fun d hd => absurd hd (by simp)) hr
            | cons a r =>
                obtain rfl : a = '*' := by simpa using hr
                exact ⟨trivial, Nat.le_succ _⟩
      | add | subtract | divide | modulo | power =>
          obtain ⟨rfl, rfl⟩ := List.cons.inj h
          exact ⟨trivial, Nat.le_refl _⟩
  | openParen | closeParen | comma =>
      obtain ⟨rfl, rfl⟩ := List.cons.inj h
      exact ⟨trivial, Nat.le_refl _⟩
  | stray a => exact absurd ht id

end Reckoner
