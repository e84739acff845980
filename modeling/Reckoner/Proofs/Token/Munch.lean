/-
# `Reckoner.Proofs.Token.Munch` — the lexer cuts a text into its longest tokens

`Munches cs ts` says without the lexer how a text falls into tokens: separators
may stand before, between and behind them, and each token is the longest that
starts where it starts.  A character that starts no token leaves the text without
any such cut.

`munches_iff` says that the lexer finds this cut, and that it fails to exist
exactly when the lexer meets a stray character.  So there is at most one.
-/
import Reckoner.Proofs.Token.Spelling

namespace Reckoner

/-- `Munches cs ts`: with separators passed over, the text `cs` is the longest tokens `ts`. -/
inductive Munches : List Char → List Token → Prop where
  | done : Munches [] []
  | separator {c : Char} {cs : List Char} {ts : List Token} :
      isSeparator c = true → Munches cs ts → Munches (c :: cs) ts
  | token {t : Token} {r : List Char} {ts : List Token} :
      t.WellFormed →
      (∀ (u : Token) (s : List Char), u.WellFormed → u.text ++ s = t.text ++ r →
        u.text.length ≤ t.text.length) →
      Munches r ts → Munches (t.text ++ r) (t :: ts)

theorem lex_separator {c : Char} (hc : isSeparator c = true) (cs : List Char) :
    lex (c :: cs) = lex cs := by
  rw [lex, if_pos hc]

theorem lex_token {c : Char} (hc : isSeparator c = false) (cs : List Char) :
    lex (c :: cs) = ⟨(Token.first c cs).1, c :: cs⟩ :: lex (Token.first c cs).2 := by
  rw [lex, if_neg (by simp [hc])]

theorem Token.WellFormed.isSeparator_head {t : Token} (ht : t.WellFormed) {c : Char}
    {cs r : List Char} (h : t.text ++ r = c :: cs) : isSeparator c = false := by
  rw [Bool.eq_false_iff]
  intro hc
  have hfirst : Token.first c cs = (.stray c, cs) := by
    simp only [isSeparator, Bool.or_eq_true, beq_iff_eq] at hc
    rcases hc with ((rfl | rfl) | rfl) | rfl <;> rfl
  have hw := (Token.length_rest_le ht h).1
  rw [hfirst] at hw
  exact hw

theorem Token.first_of_longest {t : Token} (ht : t.WellFormed) {c : Char} {cs r : List Char}
    (h : t.text ++ r = c :: cs)
    (hmax : ∀ (u : Token) (s : List Char), u.WellFormed → u.text ++ s = t.text ++ r →
      u.text.length ≤ t.text.length) :
    Token.first c cs = (t, r) := by
  obtain ⟨hw, hle⟩ := Token.length_rest_le ht h
  have happ : (Token.first c cs).1.text ++ (Token.first c cs).2 = t.text ++ r := by
    rw [Token.text_append_rest, h]
  have hge := hmax _ _ hw happ
  have hlen := congrArg List.length happ
  rw [List.length_append, List.length_append] at hlen
  obtain ⟨htext, hrest⟩ := List.append_inj happ (by omega)
  exact Prod.ext (Token.text_injective hw ht htext) hrest

/-- The lexer cuts a text into its longest tokens, and a text that has no such cut has a stray
character. -/
theorem munches_iff {cs : List Char} {ts : List Token} :
    Munches cs ts ↔ (lex cs).map (·.token) = ts ∧ ∀ t ∈ ts, t.WellFormed := by
  constructor
  · intro h
    induction h with
    | done => exact ⟨by simp [lex], by simp⟩
    | separator hc _ ih => exact ⟨by rw [lex_separator hc]; exact ih.1, ih.2⟩
    | @token t r ts ht hmax _ ih =>
        obtain ⟨c, w, htext⟩ := List.exists_cons_of_ne_nil ht.text_ne_nil
        have h : t.text ++ r = c :: (w ++ r) := by rw [htext, List.cons_append]
        rw [h, lex_token (ht.isSeparator_head h), Token.first_of_longest ht h hmax]
        refine ⟨by rw [List.map_cons, ih.1], fun u hu => ?_⟩
        rcases List.mem_cons.mp hu with rfl | hu
        · exact ht
        · exact ih.2 u hu
  · rintro ⟨rfl, hw⟩
    induction cs using lex.induct with
    | case1 => rw [lex]; exact .done
    | case2 c cs hc ih =>
        rw [lex_separator hc] at hw ⊢
        exact .separator hc (ih hw)
    | case3 c cs hc ih =>
        rw [lex_token (by simpa using hc), List.map_cons] at hw ⊢
        have hrest := ih fun t ht => hw t (List.mem_cons_of_mem _ ht)
        have ht := hw _ List.mem_cons_self
        rw [← Token.text_append_rest c cs]
        refine .token ht (fun u s hu hus => ?_) hrest
        rw [Token.text_append_rest] at hus
        have hle := (Token.length_rest_le hu hus).2
        have hlen := congrArg List.length (hus.trans (Token.text_append_rest c cs).symm)
        rw [List.length_append, List.length_append] at hlen
        omega

theorem Token.wellFormed_first (c : Char) (cs : List Char) :
    (Token.first c cs).1.WellFormed ∨ (Token.first c cs).1 = .stray c := by
  unfold Token.first
  split
  · rename_i hc
    exact Or.inl (Decimal.Literal.wellFormed_read hc cs)
  · split
    · rename_i hc
      exact Or.inl ⟨c, _, String.toList_ofList, hc, fun d hd => List.mem_takeWhile_imp hd⟩
    · split
      all_goals first | exact Or.inl trivial | exact Or.inr rfl

theorem wellFormed_or_stray_of_mem_lex {cs : List Char} {t : Token}
    (ht : t ∈ (lex cs).map (·.token)) : t.WellFormed ∨ ∃ c, t = .stray c := by
  induction cs using lex.induct with
  | case1 => exact absurd ht (by simp [lex])
  | case2 c cs hc ih => exact ih (by rwa [lex_separator hc] at ht)
  | case3 c cs hc ih =>
      rw [lex_token (by simpa using hc), List.map_cons] at ht
      rcases List.mem_cons.mp ht with rfl | ht
      · exact (Token.wellFormed_first c cs).imp_right fun h => ⟨c, h⟩
      · exact ih ht

theorem Munches.unique {cs : List Char} {ts us : List Token} (ht : Munches cs ts)
    (hu : Munches cs us) : ts = us :=
  (munches_iff.mp ht).1.symm.trans (munches_iff.mp hu).1

end Reckoner
