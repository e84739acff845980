/-
# `Reckoner.Proofs.Choice.Words` — the words of ordered choice are the tokens

`next?` is the token at the front of a text.  The rules for numbers, names and
operators, and the parentheses and the comma, match where the token is theirs, and
what they match is its text; elsewhere they fail.  One star is the exception: it
also matches the first half of a power, which the lexer never splits.
-/
import Reckoner.Expr.Choice
import Reckoner.Proofs.Pattern
import Reckoner.Proofs.Token.Munch

namespace Reckoner

/-- The token at the front of a text, with what is behind it. -/
def next? : List Char → Option (Token × List Char)
  | [] => none
  | c :: cs => some (Token.first c cs)

theorem text_append_of_next? {cs rest : List Char} {t : Token} (h : next? cs = some (t, rest)) :
    t.text ++ rest = cs := by
  cases cs with
  | nil => exact nomatch h
  | cons c w =>
      have happ := Token.text_append_rest c w
      rwa [Option.some.inj h] at happ

theorem length_lt_of_next? {cs rest : List Char} {t : Token} (h : next? cs = some (t, rest)) :
    rest.length < cs.length := by
  cases cs with
  | nil => exact nomatch h
  | cons c w =>
      have hlt := Token.length_rest_lt c w
      rwa [Option.some.inj h] at hlt

theorem length_dropWhile_le (cs : List Char) :
    (cs.dropWhile isSeparator).length ≤ cs.length := (List.dropWhile_sublist _).length_le

theorem length_dropWhile_lt {cs rest : List Char} {t : Token} (h : next? cs = some (t, rest)) :
    (rest.dropWhile isSeparator).length < cs.length :=
  Nat.lt_of_le_of_lt (length_dropWhile_le rest) (length_lt_of_next? h)

theorem wellFormed_of_next? {cs rest : List Char} {l : Decimal.Literal}
    (h : next? cs = some (.number l, rest)) : l.WellFormed := by
  cases cs with
  | nil => exact nomatch h
  | cons c w =>
      have hfirst := Token.wellFormed_first c w
      rw [Option.some.inj h] at hfirst
      exact hfirst.resolve_right nofun

/-- No separator stands at the front of a text. -/
def Skipped (cs : List Char) : Prop := ∀ c ∈ cs.head?, isSeparator c = false

theorem skipped_dropWhile (cs : List Char) : Skipped (cs.dropWhile isSeparator) := by
  intro c hc
  have h := List.head?_dropWhile_not isSeparator cs
  rw [hc] at h
  exact h

theorem Skipped.dropWhile {cs : List Char} (h : Skipped cs) : cs.dropWhile isSeparator = cs := by
  cases cs with
  | nil => rfl
  | cons c w => exact List.dropWhile_cons_of_neg (by simp [h c rfl])

theorem lex_dropWhile (cs : List Char) : lex (cs.dropWhile isSeparator) = lex cs := by
  induction cs with
  | nil => rfl
  | cons c w ih =>
      cases hc : isSeparator c with
      | true => rw [List.dropWhile_cons_of_pos hc, ih, lex_separator hc]
      | false => rw [List.dropWhile_cons_of_neg (by simp [hc])]

theorem lex_of_next? {cs rest : List Char} {t : Token} (hcs : Skipped cs)
    (h : next? cs = some (t, rest)) : lex cs = ⟨t, cs⟩ :: lex rest := by
  cases cs with
  | nil => exact nomatch h
  | cons c w => rw [lex_token (hcs c rfl), Option.some.inj h]

section Words

variable {text : List Char} {cs rest : List Char} {t : Tried Rule}

/-! ## Numbers -/

theorem matches_digits (h : (cs.takeWhile Char.isDigit).isEmpty = false) :
    Matches Rule.body text Pattern.digits cs t (.found [] (cs.dropWhile Char.isDigit) t) := by
  cases cs with
  | nil => exact nomatch h
  | cons c w =>
      cases hc : c.isDigit with
      | true => rw [List.dropWhile_cons_of_pos hc]; exact .cat (.one hc) .run
      | false => rw [List.takeWhile_cons_of_neg (by simp [hc])] at h; exact nomatch h

theorem not_matches_digits (h : (cs.takeWhile Char.isDigit).isEmpty = true) :
    Matches Rule.body text Pattern.digits cs t (.missing t) := by
  refine .notFirst (.notOne fun c hc => ?_)
  cases cs with
  | nil => exact nomatch hc
  | cons d w =>
      obtain rfl := Option.some.inj hc
      rw [Bool.eq_false_iff]
      intro hd
      rw [List.takeWhile_cons_of_pos hd] at h
      exact nomatch h

theorem matches_fraction (cs : List Char) (t : Tried Rule) :
    Matches Rule.body text (.opt (.cat (.chars ['.']) Pattern.digits)) cs t
      (.found [] (Decimal.readFraction cs).2 t) := by
  unfold Decimal.readFraction
  split
  · rename_i w
    split
    · rename_i h
      exact .notOpt (.notSecond (.chars rfl) (not_matches_digits h))
    · rename_i h
      exact .opt (.cat (.chars rfl) (matches_digits (by simpa using h)))
  · rename_i h
    exact .notOpt (.notFirst (.notChars fun rest hcs => h rest hcs))

theorem matches_sign (cs : List Char) (t : Tried Rule) :
    Matches Rule.body text (.opt (.alt (.chars ['+']) (.chars ['-']))) cs t
      (.found [] (Decimal.readSign cs).2 t) := by
  unfold Decimal.readSign
  split
  · exact .opt (.first (.chars rfl))
  · exact .opt (.second (.notChars fun rest hcs => absurd (List.cons.inj hcs).1 (by decide))
      (.chars rfl))
  · rename_i hplus hminus
    exact .notOpt (.second (.notChars fun rest hcs => hplus rest hcs)
      (.notChars fun rest hcs => hminus rest hcs))

theorem matches_exponent (cs : List Char) (t : Tried Rule) :
    Matches Rule.body text
      (.opt (.cat (.one fun c => c == 'e' || c == 'E')
        (.cat (.opt (.alt (.chars ['+']) (.chars ['-']))) Pattern.digits))) cs t
      (.found [] (Decimal.readExponent cs).2 t) := by
  unfold Decimal.readExponent
  split
  · exact .notOpt (.notFirst (.notOne (by simp)))
  · rename_i c w
    split
    · rename_i hmark
      simp only
      split
      · rename_i h
        exact .notOpt (.notSecond (.one hmark)
          (.notSecond (matches_sign w t) (not_matches_digits h)))
      · rename_i h
        exact .opt (.cat (.one hmark)
          (.cat (matches_sign w t) (matches_digits (by simpa using h))))
    · rename_i hmark
      refine .notOpt (.notFirst (.notOne fun d hd => ?_))
      obtain rfl := Option.some.inj hd
      exact Bool.eq_false_iff.mpr hmark

theorem matches_number {l : Decimal.Literal} (h : next? cs = some (.number l, rest)) :
    Matches Rule.body text (.rule .number) cs t (.found [.node .number l.text []] rest t) := by
  refine .node (text_append_of_next? h) ?_
  cases cs with
  | nil => exact nomatch h
  | cons c w =>
      have hread : c.isDigit = true ∧ Decimal.Literal.read c w = (l, rest) := by
        have h := Option.some.inj h
        unfold Token.first at h
        split at h
        · rename_i hc
          obtain ⟨hl, hrest⟩ := Prod.mk.inj h
          exact ⟨hc, Prod.ext (Token.number.inj hl) hrest⟩
        · split at h
          · exact absurd (congrArg Prod.fst h) (by simp)
          · split at h <;> exact absurd (congrArg Prod.fst h) (by simp)
      obtain ⟨hc, hread⟩ := hread
      have hdigits : Matches Rule.body text Pattern.digits (c :: w) t
          (.found [] (w.dropWhile Char.isDigit) t) := .cat (.one hc) .run
      have hrest : (Decimal.readExponent (Decimal.readFraction (w.dropWhile Char.isDigit)).2).2
          = rest := congrArg Prod.snd hread
      rw [← hrest]
      exact .cat hdigits (.cat (matches_fraction _ t) (matches_exponent _ t))

theorem not_matches_number (h : ∀ l rest, next? cs ≠ some (.number l, rest)) :
    Matches Rule.body text (.rule .number) cs t (.missing (t.track cs .number t)) := by
  refine .notRule (.notFirst (.notFirst (.notOne fun c hc => ?_)))
  cases cs with
  | nil => exact nomatch hc
  | cons d w =>
      obtain rfl := Option.some.inj hc
      rw [Bool.eq_false_iff]
      intro hd
      exact h _ _ (congrArg some (Token.first_digit hd w))

/-! ## Names -/

theorem matches_name {x : String} (h : next? cs = some (.name x, rest)) :
    Matches Rule.body text (.rule .name) cs t (.found [.node .name x.toList []] rest t) := by
  refine .node (text_append_of_next? h) ?_
  cases cs with
  | nil => exact nomatch h
  | cons c w =>
      have hread : isNameStart c = true ∧ w.dropWhile isNamePart = rest := by
        have h := Option.some.inj h
        unfold Token.first at h
        split at h
        · exact absurd (congrArg Prod.fst h) (by simp)
        · split at h
          · rename_i hc
            exact ⟨hc, congrArg Prod.snd h⟩
          · split at h <;> exact absurd (congrArg Prod.fst h) (by simp)
      obtain ⟨hc, rfl⟩ := hread
      exact .cat (.one hc) .run

theorem not_matches_name (h : ∀ x rest, next? cs ≠ some (.name x, rest)) :
    Matches Rule.body text (.rule .name) cs t (.missing (t.track cs .name t)) := by
  refine .notRule (.notFirst (.notOne fun c hc => ?_))
  cases cs with
  | nil => exact nomatch hc
  | cons d w =>
      obtain rfl := Option.some.inj hc
      rw [Bool.eq_false_iff]
      intro hd
      exact h _ _ (congrArg some (Token.first_name hd w))

/-! ## Operators and marks -/

theorem matches_operator {o : Operator} (h : o.symbol.toList ++ rest = cs) :
    Matches Rule.body text (.rule (.operator o)) cs t
      (.found [.node (.operator o) o.symbol.toList []] rest t) :=
  .node h (.chars h.symm)

theorem not_matches_operator {o : Operator} (h : ∀ rest, next? cs ≠ some (.operator o, rest))
    (hstar : o = .multiply → ∀ rest, next? cs ≠ some (.operator .power, rest)) :
    Matches Rule.body text (.rule (.operator o)) cs t
      (.missing (t.track cs (.operator o) t)) := by
  refine .notRule (.notChars fun rest hcs => ?_)
  have hsymbol : cs = (Token.operator o).text ++ rest := hcs
  rw [Token.text_operator] at hsymbol
  subst hsymbol
  cases o with
  | multiply =>
      cases rest with
      | nil => exact h [] rfl
      | cons c rest =>
          by_cases hc : c = '*'
          · subst hc
            exact hstar rfl rest rfl
          · exact h (c :: rest)
              (congrArg some (Token.first_star_of_head_ne fun d hd => by simp_all))
  | add | subtract | divide | modulo | power => exact h rest rfl

/-- A parenthesis or a comma, as a token. -/
inductive Punctuation : Char → Token → Prop where
  | openParen : Punctuation '(' .openParen
  | closeParen : Punctuation ')' .closeParen
  | comma : Punctuation ',' .comma

theorem matches_mark {c : Char} {m : Token} (hm : Punctuation c m) (h : next? cs = some (m, rest)) :
    Matches Rule.body text (.chars [c]) cs t (.found [] rest t) := by
  refine .chars ?_
  rw [← text_append_of_next? h]
  cases hm <;> rfl

theorem not_matches_mark {c : Char} {m : Token} (hm : Punctuation c m)
    (h : ∀ rest, next? cs ≠ some (m, rest)) :
    Matches Rule.body text (.chars [c]) cs t (.missing t) := by
  refine .notChars fun rest hcs => h rest ?_
  subst hcs
  cases hm <;> rfl

end Words

end Reckoner
