/-
# `Reckoner.Proofs.Token.Layout` — tokens with separators between them

`Layout ts cs` says that the text `cs` is the tokens `ts` with any separators, or
none, before, between and behind them.  A layout is cut back into its tokens when no
token runs into the next (`Layout.munches`); one that keeps a separator before every
token always is (`exists_munches_spaced`).

`MunchesTo` is the cut of the front of a text: it stops at a place and says nothing
about what comes there.  `munchesTo_of_lex` finds such a place behind any number of
the tokens that the lexer reads.
-/
import Mathlib.Data.List.Chain
import Reckoner.Proofs.Token.Characters
import Reckoner.Proofs.Token.Munch

namespace Reckoner

/-! ## The longest token -/

/-- Of all tokens at the front of the text `t.text ++ r`, none is longer than `t`. -/
def Token.LongestBefore (t : Token) (r : List Char) : Prop :=
  ∀ (u : Token) (s : List Char), u.WellFormed → u.text ++ s = t.text ++ r →
    u.text.length ≤ t.text.length

theorem Token.WellFormed.longestBefore {t : Token} (ht : t.WellFormed) {r : List Char}
    (hr : ∀ d ∈ r.head?, t.continuesWith d = false) : t.LongestBefore r := by
  intro u s hu hus
  obtain ⟨c, w, htext⟩ := List.exists_cons_of_ne_nil ht.text_ne_nil
  have h : t.text ++ r = c :: (w ++ r) := by rw [htext, List.cons_append]
  have hread := Token.first_text ht h hr
  have hle := (Token.length_rest_le hu (hus.trans h)).2
  rw [hread] at hle
  have hlength := congrArg List.length hus
  rw [List.length_append, List.length_append] at hlength
  have hle : r.length ≤ s.length := hle
  omega

theorem Token.continuesWith_separator (t : Token) {c : Char} (hc : isSeparator c = true) :
    t.continuesWith c = false := by
  simp only [isSeparator, Bool.or_eq_true, beq_iff_eq] at hc
  rcases hc with ((rfl | rfl) | rfl) | rfl
  all_goals
    cases t with
    | operator o => cases o <;> rfl
    | number l | name x | openParen | closeParen | comma | stray d => rfl

/-- What stands behind a token matters only up to the first separator. -/
theorem Token.LongestBefore.cut {t : Token} {before rest : List Char}
    (h : t.LongestBefore (before ++ rest)) {x : List Char}
    (hx : ∀ c ∈ x.head?, isSeparator c = true) : t.LongestBefore (before ++ x) := by
  intro u s hu hus
  rw [← List.append_assoc] at hus
  obtain ⟨v, hv⟩ : ∃ v, t.text ++ before = u.text ++ v := by
    obtain ⟨v, hv, -⟩ | ⟨v, hv, hx'⟩ := List.append_eq_append_iff.mp hus
    · exact ⟨v, hv⟩
    · cases v with
      | nil => exact ⟨[], by rw [hv, List.append_nil, List.append_nil]⟩
      | cons c v =>
          -- the token would reach over the separator
          have hsep : isSeparator c = true := hx c (by rw [hx']; rfl)
          have hnot := hu.isSeparator_of_mem_text (c := c) (by simp [hv])
          exact absurd hsep (by simp [hnot])
  exact h u (v ++ rest) hu (by rw [← List.append_assoc, ← hv, List.append_assoc])

theorem Munches.separators {w cs : List Char} {ts : List Token}
    (hw : ∀ c ∈ w, isSeparator c = true) (h : Munches cs ts) : Munches (w ++ cs) ts := by
  induction w with
  | nil => exact h
  | cons c w ih =>
      exact .separator (hw c List.mem_cons_self) (ih fun d hd => hw d (List.mem_cons_of_mem _ hd))

/-! ## Layouts -/

/-- `Layout ts cs`: the text `cs` is the tokens `ts`, with separators anywhere around them. -/
inductive Layout : List Token → List Char → Prop where
  | nil {w : List Char} : (∀ c ∈ w, isSeparator c = true) → Layout [] w
  | cons {t : Token} {ts : List Token} {w cs : List Char} :
      (∀ c ∈ w, isSeparator c = true) → Layout ts cs → Layout (t :: ts) (w ++ (t.text ++ cs))

/-- The token `t` does not run into the token `u` behind it. -/
def Token.StopsBefore (t u : Token) : Prop := ∀ d ∈ u.text.head?, t.continuesWith d = false

/-- Tokens of which none runs into the next are the tokens of each of their layouts. -/
theorem Layout.munches {ts : List Token} {cs : List Char} (h : Layout ts cs)
    (hw : ∀ t ∈ ts, t.WellFormed) (hstops : ts.IsChain Token.StopsBefore) : Munches cs ts := by
  induction h with
  | nil hsep =>
      have := Munches.separators hsep .done
      rwa [List.append_nil] at this
  | @cons t ts w cs hsep hlayout ih =>
      have ht := hw t List.mem_cons_self
      have hrest := ih (fun u hu => hw u (List.mem_cons_of_mem _ hu)) hstops.tail
      refine .separators hsep (.token ht (ht.longestBefore fun d hd => ?_) hrest)
      cases hlayout with
      | nil hsep' =>
          exact t.continuesWith_separator (hsep' d (List.mem_of_mem_head? hd))
      | @cons u us w' cs' hsep' _ =>
          cases w' with
          | cons c w' =>
              obtain rfl : c = d := by simpa using hd
              exact t.continuesWith_separator (hsep' c List.mem_cons_self)
          | nil =>
              have hu := hw u (List.mem_cons_of_mem _ List.mem_cons_self)
              obtain ⟨c, r, htext⟩ := List.exists_cons_of_ne_nil hu.text_ne_nil
              obtain rfl : c = d := by simpa [htext] using hd
              exact hstops.rel c (by simp [htext])

theorem exists_munches_spaced {ts : List Token} (hw : ∀ t ∈ ts, t.WellFormed) :
    ∃ x, (∀ c ∈ x.head?, isSeparator c = true) ∧ Munches x ts := by
  induction ts with
  | nil => exact ⟨[], by simp, .done⟩
  | cons t ts ih =>
      obtain ⟨x, hx, hts⟩ := ih fun u hu => hw u (List.mem_cons_of_mem _ hu)
      have ht := hw t List.mem_cons_self
      refine ⟨' ' :: (t.text ++ x), by simp [isSeparator], .separator rfl ?_⟩
      exact .token ht (ht.longestBefore fun d hd => t.continuesWith_separator (hx d hd)) hts

/-! ## The front of a text -/

/-- `MunchesTo cs ts rest`: the longest tokens at the front of `cs` are `ts`, and behind them and
the separators that follow them stands `rest`. -/
inductive MunchesTo : List Char → List Token → List Char → Prop where
  | here {cs : List Char} : (∀ c ∈ cs.head?, isSeparator c = false) → MunchesTo cs [] cs
  | separator {c : Char} {cs rest : List Char} {ts : List Token} :
      isSeparator c = true → MunchesTo cs ts rest → MunchesTo (c :: cs) ts rest
  | token {t : Token} {r rest : List Char} {ts : List Token} :
      t.WellFormed → t.LongestBefore r → MunchesTo r ts rest →
      MunchesTo (t.text ++ r) (t :: ts) rest

theorem MunchesTo.wellFormed {cs rest : List Char} {ts : List Token} (h : MunchesTo cs ts rest) :
    ∀ t ∈ ts, t.WellFormed := by
  induction h with
  | here _ => exact List.forall_mem_nil _
  | separator _ _ ih => exact ih
  | token ht _ _ ih => exact List.forall_mem_cons.mpr ⟨ht, ih⟩

theorem Token.LongestBefore.unique {t u : Token} {r s : List Char} (ht : t.WellFormed)
    (hu : u.WellFormed) (htmax : t.LongestBefore r) (humax : u.LongestBefore s)
    (h : t.text ++ r = u.text ++ s) : t = u ∧ r = s := by
  have hlength := Nat.le_antisymm (humax t r ht h) (htmax u s hu h.symm)
  obtain ⟨htext, hrest⟩ := List.append_inj h hlength
  exact ⟨Token.text_injective ht hu htext, hrest⟩

theorem MunchesTo.linear {cs rest rest' : List Char} {ts ts' : List Token}
    (h : MunchesTo cs ts rest) (h' : MunchesTo cs ts' rest') :
    (∃ us, ts' = ts ++ us ∧ MunchesTo rest us rest') ∨
      ∃ us, ts = ts' ++ us ∧ MunchesTo rest' us rest := by
  induction h generalizing ts' rest' with
  | here _ => exact Or.inl ⟨ts', rfl, h'⟩
  | @separator c cs rest ts hc hto ih =>
      generalize hcs : c :: cs = text at h'
      cases h' with
      | here hhead =>
          subst hcs
          exact absurd hc (by simp [hhead c rfl])
      | separator _ h' =>
          obtain ⟨rfl, rfl⟩ := List.cons.inj hcs
          exact ih h'
      | token hu _ _ => exact absurd hc (by simp [hu.isSeparator_head hcs.symm])
  | @token t r rest ts ht hmax hto ih =>
      generalize hcs : t.text ++ r = text at h'
      cases h' with
      | here hhead =>
          subst hcs
          exact Or.inr ⟨t :: ts, rfl, .token ht hmax hto⟩
      | separator hc _ => exact absurd hc (by simp [ht.isSeparator_head hcs])
      | token hu humax h' =>
          obtain ⟨rfl, rfl⟩ := Token.LongestBefore.unique ht hu hmax humax hcs
          rcases ih h' with ⟨us, rfl, hus⟩ | ⟨us, rfl, hus⟩
          · exact Or.inl ⟨us, rfl, hus⟩
          · exact Or.inr ⟨us, rfl, hus⟩

/-- The front of a text may be gone on with behind a separator: that changes none of its tokens. -/
theorem MunchesTo.cut {cs rest : List Char} {ts : List Token} (h : MunchesTo cs ts rest) :
    ∃ before, cs = before ++ rest ∧ ∀ (x : List Char) (us : List Token),
      (∀ c ∈ x.head?, isSeparator c = true) → Munches x us → Munches (before ++ x) (ts ++ us) := by
  induction h with
  | here _ => exact ⟨[], rfl, fun x us _ h => h⟩
  | @separator c cs rest ts hc _ ih =>
      obtain ⟨before, rfl, hgo⟩ := ih
      exact ⟨c :: before, rfl, fun x us hx h => .separator hc (hgo x us hx h)⟩
  | @token t r rest ts ht hmax _ ih =>
      obtain ⟨before, rfl, hgo⟩ := ih
      refine ⟨t.text ++ before, (List.append_assoc ..).symm, fun x us hx h => ?_⟩
      rw [List.append_assoc]
      exact .token ht (hmax.cut hx) (hgo x us hx h)

/-- The text from the first of some lexemes on. -/
def hereOf : List Lexeme → List Char
  | [] => []
  | l :: _ => l.here

/-- Behind some of the tokens that the lexer reads, the text is cut so far, and the lexer would
read the others from there on. -/
theorem munchesTo_of_lex {cs : List Char} {read unread : List Lexeme}
    (h : lex cs = read ++ unread) (hw : ∀ l ∈ read, l.token.WellFormed) :
    MunchesTo cs (read.map (·.token)) (hereOf unread) ∧ lex (hereOf unread) = unread ∧
      ∀ c ∈ (hereOf unread).head?, isSeparator c = false := by
  induction cs using lex.induct generalizing read with
  | case1 =>
      rw [lex] at h
      obtain ⟨rfl, rfl⟩ := List.append_eq_nil_iff.mp h.symm
      exact ⟨.here (by simp), by rw [hereOf, lex], by simp [hereOf]⟩
  | case2 c cs hc ih =>
      rw [lex_separator hc] at h
      obtain ⟨hto, hlex, hhead⟩ := ih h hw
      exact ⟨.separator hc hto, hlex, hhead⟩
  | case3 c cs hc ih =>
      have hc : isSeparator c = false := by simpa using hc
      cases read with
      | nil =>
          have hhere : hereOf unread = c :: cs := by
            rw [lex_token hc, List.nil_append] at h
            rw [← h, hereOf]
          have hhead : ∀ d ∈ (c :: cs).head?, isSeparator d = false := by
            intro d hd
            obtain rfl : c = d := by simpa using hd
            exact hc
          rw [hhere]
          exact ⟨.here hhead, h, hhead⟩
      | cons l read =>
          rw [lex_token hc, List.cons_append] at h
          obtain ⟨rfl, hrest⟩ := List.cons.inj h
          obtain ⟨hto, hlex, hhead⟩ := ih hrest fun l hl => hw l (List.mem_cons_of_mem _ hl)
          have ht : (Token.first c cs).1.WellFormed := hw _ List.mem_cons_self
          refine ⟨?_, hlex, hhead⟩
          rw [← Token.text_append_rest c cs]
          refine .token ht (fun u s hu hus => ?_) hto
          rw [Token.text_append_rest] at hus
          have hle := (Token.length_rest_le hu hus).2
          have hlength := congrArg List.length (hus.trans (Token.text_append_rest c cs).symm)
          rw [List.length_append, List.length_append] at hlength
          omega

end Reckoner
