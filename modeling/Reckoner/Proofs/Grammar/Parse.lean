/-
# `Reckoner.Proofs.Grammar.Parse` — which texts are expressions, and which

A text that is not blank is past the grammar when it falls into longest tokens and
these are a sentence.  Its tree is then the tree of the sentence, unless a literal
is out of range, and there is no other.
-/
import Reckoner.Proofs.Grammar.Sentence
import Reckoner.Proofs.Token.Munch

namespace Reckoner

mutual
theorem Derives.not_stray : ∀ {k : Level} {ts : List Token} {e : Expr}, Derives k ts e →
    ∀ c, .stray c ∉ ts
  | _, _, _, .number _, _ => by simp
  | _, _, _, .name _, _ => by simp
  | _, _, _, .group h, c => by simp [h.not_stray c]
  | _, _, _, .callNothing _, _ => by simp
  | _, _, _, .call _ h, c => by simp [h.not_stray c]
  | _, _, _, .signed _ h, c => by simp [h.not_stray c]
  | _, _, _, .binary _ hl hr, c => by simp [hl.not_stray c, hr.not_stray c]
  | _, _, _, .loosen _ h, c => h.not_stray c
theorem DerivesList.not_stray : ∀ {ts : List Token} {es : List Expr}, DerivesList ts es →
    ∀ c, .stray c ∉ ts
  | _, _, .last h, c => h.not_stray c
  | _, _, .cons h hs, c => by simp [h.not_stray c, hs.not_stray c]
end

/-- The tokens that the lexer finds are a phrase exactly when some cut into longest tokens is. -/
theorem derives_lex_iff {cs : List Char} {e : Expr} :
    Derives .sum ((lex cs).map (·.token)) e ↔ ∃ ts, Munches cs ts ∧ Sentence .sum ts e := by
  constructor
  · intro h
    refine ⟨_, munches_iff.mpr ⟨rfl, fun t ht => ?_⟩, h.sentence⟩
    rcases wellFormed_or_stray_of_mem_lex ht with hw | ⟨c, rfl⟩
    · exact hw
    · exact absurd ht (h.not_stray c)
  · rintro ⟨ts, hts, h⟩
    rw [(munches_iff.mp hts).1]
    exact h.derives

theorem parse_eq {s : String} (hs : Text.isEmpty s = false) :
    Expr.parse s = match Expr.ofTokens ((lex s.toList).map (·.token)) with
      | .error stop => .error (.unexpected s
          (columnOf s.toList (textAt (lex s.toList) stop.unread)) stop.expected)
      | .ok e =>
        match ((lex s.toList).map (·.token)).findSome? Token.outOfRange? with
        | some l => .error (.literalOutOfRange l)
        | none => .ok e := by
  simp only [Expr.parse, hs]
  rfl

theorem number_of_outOfRange? {t : Token} {l : Decimal.Literal} (h : t.outOfRange? = some l) :
    t = .number l ∧ l.value.isFinite = false := by
  cases t with
  | number l' =>
      rw [Token.outOfRange?, Option.ite_none_left_eq_some] at h
      obtain ⟨hfinite, hl⟩ := h
      obtain rfl := Option.some.inj hl
      exact ⟨rfl, Bool.eq_false_iff.mpr hfinite⟩
  | name x | operator o | openParen | closeParen | comma | stray c =>
      exact absurd h (Option.some_ne_none l).symm

theorem findSome?_outOfRange?_eq_none_iff {ts : List Token} :
    ts.findSome? Token.outOfRange? = none ↔ ∀ l, .number l ∈ ts → l.value.isFinite = true := by
  rw [List.findSome?_eq_none_iff]
  constructor
  · intro h l hl
    simpa [Token.outOfRange?] using h _ hl
  · intro h t ht
    cases t with
    | number l => simpa [Token.outOfRange?] using h l ht
    | _ => rfl

theorem parse_eq_ok_iff {s : String} (hs : Text.isEmpty s = false) {e : Expr} :
    Expr.parse s = .ok e ↔ Derives .sum ((lex s.toList).map (·.token)) e ∧
      ∀ l, .number l ∈ (lex s.toList).map (·.token) → l.value.isFinite = true := by
  rw [parse_eq hs, ← ofTokens_eq_ok_iff, ← findSome?_outOfRange?_eq_none_iff]
  cases hread : Expr.ofTokens ((lex s.toList).map (·.token)) with
  | error stop => simp
  | ok e' => cases ((lex s.toList).map (·.token)).findSome? Token.outOfRange? <;> simp

theorem derives_of_parse {s : String} {e : Expr} (h : Expr.parse s = .ok e) :
    Derives .sum ((lex s.toList).map (·.token)) e ∧
      ∀ l, .number l ∈ (lex s.toList).map (·.token) → l.value.isFinite = true := by
  have hs : Text.isEmpty s = false := by
    rw [Bool.eq_false_iff]
    intro hs
    exact absurd h (by simp [Expr.parse, hs])
  exact (parse_eq_ok_iff hs).mp h

theorem parse_ne_unexpected_iff {s : String} (hs : Text.isEmpty s = false) :
    (∀ text column expected, Expr.parse s ≠ .error (.unexpected text column expected)) ↔
      ∃ e, Derives .sum ((lex s.toList).map (·.token)) e := by
  simp only [parse_eq hs, ← ofTokens_eq_ok_iff]
  cases hread : Expr.ofTokens ((lex s.toList).map (·.token)) with
  | error stop => simp
  | ok e' => cases ((lex s.toList).map (·.token)).findSome? Token.outOfRange? <;> simp

/-- **The grammar of texts.**  A text that is not blank is past the grammar exactly when it can be
cut into longest tokens that are a sentence.  If moreover every literal is in range, it is read as
the tree of that sentence, and as nothing else.  The cut and the tree are the only ones. -/
theorem parse_iff_sentence {s : String} (hs : Text.isEmpty s = false) :
    ((∀ text column expected, Expr.parse s ≠ .error (.unexpected text column expected)) ↔
      ∃ ts e, Munches s.toList ts ∧ Sentence .sum ts e) ∧
    (∀ e, Expr.parse s = .ok e ↔
      ∃ ts, Munches s.toList ts ∧ Sentence .sum ts e ∧
        ∀ l, .number l ∈ ts → l.value.isFinite = true) ∧
    (∀ ts ts' e e', Munches s.toList ts → Sentence .sum ts e →
      Munches s.toList ts' → Sentence .sum ts' e' → ts = ts' ∧ e = e') := by
  refine ⟨?_, fun e => ?_, ?_⟩
  · rw [parse_ne_unexpected_iff hs]
    simp only [derives_lex_iff]
    exact exists_comm
  · rw [parse_eq_ok_iff hs, derives_lex_iff]
    constructor
    · rintro ⟨⟨ts, hts, h⟩, hrange⟩
      rw [(munches_iff.mp hts).1] at hrange
      exact ⟨ts, hts, h, hrange⟩
    · rintro ⟨ts, hts, h, hrange⟩
      rw [(munches_iff.mp hts).1]
      exact ⟨⟨ts, hts, h⟩, hrange⟩
  · intro ts ts' e e' hts h hts' h'
    obtain rfl := hts.unique hts'
    exact ⟨rfl, h.derives.unique h'.derives⟩

/-- Differences group to the left, and a power with a call in its exponent stands between them. -/
theorem parse_iff_sentence_differences :
    Text.isEmpty "a - 2 ** f(x) - 1" = false ∧
      ∃ ts, Munches "a - 2 ** f(x) - 1".toList ts ∧
        Sentence .sum ts
          (.binary .subtract
            (.binary .subtract (.name "a")
              (.binary .power (.number (.ofFloat (Decimal.Literal.value ⟨['2'], [], none⟩)))
                (.call "f" [.name "x"])))
            (.number (.ofFloat (Decimal.Literal.value ⟨['1'], [], none⟩)))) ∧
        ∀ l, .number l ∈ ts → l.value.isFinite = true := by
  have hs : Text.isEmpty "a - 2 ** f(x) - 1" = false := by decide
  refine ⟨hs, ((parse_iff_sentence hs).2.1 _).mp ?_⟩
  with_unfolding_all rfl

end Reckoner
