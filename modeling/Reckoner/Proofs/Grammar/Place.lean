/-
# `Reckoner.Proofs.Grammar.Place` — where a text that is no expression goes wrong

The report of a malformed text names a column and what was due there.  Both belong to
one place: the first token, stray character or end of the text that cannot follow the
tokens before it (`FirstFault`).  No text has two such places (`FirstFault.unique`), and
`parse_tells_first_fault` says that every text without a sentence has one and that the
report is about it.

On the level of tokens this is `ofTokens_stop`.  What is added here is the way back to
characters: the lexer would read the remaining tokens from the place on
(`munchesTo_of_lex`), and the text before the place can be completed behind a separator,
which leaves its tokens as they are (`MunchesTo.cut`).
-/
import Reckoner.Proofs.Grammar.Parse
import Reckoner.Proofs.Grammar.Viable
import Reckoner.Proofs.Token.Layout

namespace Reckoner

/-- `FirstFault text before read rest`: the text goes wrong between `before` and `rest`, where it
has been cut into the tokens `read`.  These can be gone on with, but not with what comes next: the
end of the text, a token, or a character that starts no token. -/
structure FirstFault (text before : List Char) (read : List Token) (rest : List Char) : Prop where
  split : text = before ++ rest
  cut : MunchesTo text read rest
  /-- Separators are passed over before the place. -/
  no_separator : ∀ c ∈ rest.head?, isSeparator c = false
  viable : Viable read
  not_end : rest = [] → ∀ e, ¬ Sentence .sum read e
  not_next : ∀ t r, t.WellFormed → t.LongestBefore r → rest = t.text ++ r → ¬ Viable (read ++ [t])

section Unique

variable {text before before' rest rest' : List Char} {read read' : List Token}

theorem FirstFault.eq_of_munchesTo (h : FirstFault text before read rest) {us : List Token}
    (hus : MunchesTo rest us rest') (hviable : Viable (read ++ us)) : us = [] ∧ rest' = rest := by
  generalize hrest : rest = cs at hus
  cases hus with
  | here _ => exact ⟨rfl, rfl⟩
  | separator hc _ =>
      have hnot := h.no_separator _ (by rw [hrest]; rfl)
      exact absurd hc (by simp [hnot])
  | @token t r _ us ht hmax hto =>
      have hnext : Viable (read ++ [t] ++ us) := by rwa [List.append_cons] at hviable
      exact absurd (hnext.of_append hto.wellFormed) (h.not_next t r ht hmax hrest)

theorem FirstFault.unique (h : FirstFault text before read rest)
    (h' : FirstFault text before' read' rest') :
    before' = before ∧ read' = read ∧ rest' = rest := by
  have hplace : read' = read ∧ rest' = rest := by
    rcases h.cut.linear h'.cut with ⟨us, rfl, hus⟩ | ⟨us, rfl, hus⟩
    · obtain ⟨rfl, rfl⟩ := h.eq_of_munchesTo hus h'.viable
      exact ⟨List.append_nil _, rfl⟩
    · obtain ⟨rfl, rfl⟩ := h'.eq_of_munchesTo hus h.viable
      exact ⟨(List.append_nil _).symm, rfl⟩
  obtain ⟨rfl, rfl⟩ := hplace
  exact ⟨List.append_cancel_right (h'.split.symm.trans h.split), rfl, rfl⟩

end Unique

def Accepted (text : List Char) : Prop := ∃ ts e, Munches text ts ∧ Sentence .sum ts e

theorem accepted_of_derives_lex {text : List Char} {e : Expr}
    (h : Derives .sum ((lex text).map (·.token)) e) : Accepted text := by
  obtain ⟨ts, hts, hsentence⟩ := derives_lex_iff.mp h
  exact ⟨ts, e, hts, hsentence⟩

/-- The front of a text whose tokens are viable can be gone on with to an accepted text. -/
theorem MunchesTo.exists_accepted {text rest : List Char} {read : List Token}
    (hcut : MunchesTo text read rest) (h : Viable read) :
    ∃ before, text = before ++ rest ∧ ∃ suffix, Accepted (before ++ suffix) := by
  obtain ⟨before, htext, hgo⟩ := hcut.cut
  obtain ⟨post, e, hw, hsentence⟩ := h
  obtain ⟨suffix, hsep, hpost⟩ := exists_munches_spaced hw
  exact ⟨before, htext, suffix, _, e, hgo suffix post hsep hpost, hsentence⟩

theorem wellFormed_of_viable {text : List Char} {read unread : List Token}
    (hlex : (lex text).map (·.token) = read ++ unread) (h : Viable read) :
    ∀ t ∈ read, t.WellFormed := by
  intro t ht
  obtain ⟨post, e, -, hsentence⟩ := h
  have hmem : t ∈ (lex text).map (·.token) := by
    rw [hlex]
    exact List.mem_append_left _ ht
  rcases wellFormed_or_stray_of_mem_lex hmem with hw | ⟨c, rfl⟩
  · exact hw
  · exact absurd (List.mem_append_left post ht) (hsentence.derives.not_stray c)

theorem head?_lex_of_longest {t : Token} {r : List Char} (ht : t.WellFormed)
    (hmax : t.LongestBefore r) :
    ((lex (t.text ++ r)).map (·.token)).head? = some t := by
  obtain ⟨c, w, htext⟩ := List.exists_cons_of_ne_nil ht.text_ne_nil
  have h : t.text ++ r = c :: (w ++ r) := by rw [htext, List.cons_append]
  rw [h, lex_token (ht.isSeparator_head h), Token.first_of_longest ht h hmax]
  rfl

theorem textAt_append (read unread : List Lexeme) :
    textAt (read ++ unread) (unread.map (·.token)) = hereOf unread := by
  have hdrop : (read ++ unread).drop ((read ++ unread).length - (unread.map (·.token)).length)
      = unread := by
    rw [List.length_append, List.length_map, Nat.add_sub_cancel]
    exact List.drop_left
  rw [textAt, hdrop]
  cases unread with
  | nil => rfl
  | cons l ls => rfl

theorem columnOf_append (before rest : List Char) :
    columnOf (before ++ rest) rest = (lastLine before).length + 1 := by
  have htake : (before ++ rest).take ((before ++ rest).length - rest.length) = before := by
    rw [List.length_append, Nat.add_sub_cancel]
    exact List.take_left
  rw [columnOf, htake]

theorem firstFault_of_stop {text : List Char} {stop : Stop}
    (h : Expr.ofTokens ((lex text).map (·.token)) = .error stop) :
    ∃ before read, FirstFault text before read (textAt (lex text) stop.unread) ∧
      (∃ suffix, Accepted (before ++ suffix)) ∧ stop.expected.text = dueText read := by
  obtain ⟨read, htokens, hviable, hend, hnext, hdue⟩ := ofTokens_stop h
  have hwords := wellFormed_of_viable htokens hviable
  obtain ⟨front, back, hlex, rfl, hback⟩ := List.map_eq_append_iff.mp htokens
  obtain ⟨hcut, hagain, hhead⟩ :=
    munchesTo_of_lex hlex fun l hl => hwords _ (List.mem_map_of_mem hl)
  obtain ⟨before, hsplit, haccepted⟩ := hcut.exists_accepted hviable
  have hplace : textAt (lex text) stop.unread = hereOf back := by
    rw [hlex, ← hback, textAt_append]
  rw [hplace]
  refine ⟨before, _, ⟨hsplit, hcut, hhead, hviable, fun hrest => ?_, fun t r ht hmax hrest => ?_⟩,
    haccepted, hdue⟩
  · apply hend
    rw [hrest, lex] at hagain
    rw [← hback, ← hagain, List.map_nil]
  · have hfirst := head?_lex_of_longest ht hmax
    rw [← hrest, hagain, hback] at hfirst
    obtain ⟨post, hpost⟩ := List.head?_eq_some_iff.mp hfirst
    exact hnext t post hpost

theorem not_accepted_of_parse {s text : String} (hs : Text.isEmpty s = false) {column : Nat}
    {expected : Expectation} (h : Expr.parse s = .error (.unexpected text column expected)) :
    ¬ Accepted s.toList := by
  rintro ⟨ts, e, hts, hsentence⟩
  have hderives := derives_lex_iff.mpr ⟨ts, hts, hsentence⟩
  exact (parse_ne_unexpected_iff hs).mpr ⟨e, hderives⟩ text column expected h

/-- **The report of a malformed text.**  A text that is neither blank nor accepted has a first
fault, and the text before it is the beginning of an accepted one.  The report has the whole text,
the column of the fault, counted from one behind the last line feed, and what was due: an operand
exactly where a number can follow. -/
theorem parse_tells_first_fault {s : String} (hs : Text.isEmpty s = false)
    (hrejected : ¬ Accepted s.toList) :
    (∃ before read rest, FirstFault s.toList before read rest) ∧
    ∀ before read rest, FirstFault s.toList before read rest →
      (∃ suffix, Accepted (before ++ suffix)) ∧
      (∀ l, Viable (read ++ [.number l]) ↔ endsOperand read = false) ∧
      ∃ fault, Expr.parse s = .error fault ∧
        fault.report =
          { kind := .malformed
            message := "Invalid syntax: expected " ++ dueText read
            notes := [("expression", s),
              ("position", toString ((lastLine before).length + 1))] } := by
  cases hread : Expr.ofTokens ((lex s.toList).map (·.token)) with
  | ok e => exact absurd (accepted_of_derives_lex (ofTokens_eq_ok_iff.mp hread)) hrejected
  | error stop =>
      obtain ⟨before, read, hfault, haccepted, hdue⟩ := firstFault_of_stop hread
      refine ⟨⟨before, read, _, hfault⟩, fun before' read' rest' hfault' => ?_⟩
      obtain ⟨rfl, rfl, rfl⟩ := hfault'.unique hfault
      refine ⟨haccepted, viable_number_iff hfault.viable,
        .unexpected s (columnOf s.toList (textAt (lex s.toList) stop.unread)) stop.expected, ?_, ?_⟩
      · rw [parse_eq hs, hread]
      · have hcolumn := columnOf_append before (textAt (lex s.toList) stop.unread)
        rw [← hfault.split] at hcolumn
        rw [ParseError.report, hcolumn, hdue]

/-- A product without its right operand, on the second line and within a call; and a number where
an operator is due, within a call and outside. -/
theorem parse_tells_first_fault_product :
    let Tells := fun (s : String) (column : Nat) (expected : Expectation) =>
      Text.isEmpty s = false ∧ ¬ Accepted s.toList ∧
        Expr.parse s = .error (.unexpected s column expected) ∧
        ∃ before read rest, FirstFault s.toList before read rest ∧
          (∃ suffix, Accepted (before ++ suffix)) ∧
          (ParseError.unexpected s column expected).report =
            { kind := .malformed
              message := "Invalid syntax: expected " ++ dueText read
              notes := [("expression", s), ("position", toString ((lastLine before).length + 1))] }
    Tells "1 +\n f(2 *, 3)" 7 .operand ∧ Tells "f(1 2)" 5 .operator ∧
      Tells "1 2" 3 .finishOrOperator := by
  intro Tells
  have htells : ∀ s column expected, Text.isEmpty s = false →
      Expr.parse s = .error (.unexpected s column expected) → Tells s column expected := by
    intro s column expected hs hparse
    have hrejected := not_accepted_of_parse hs hparse
    obtain ⟨⟨before, read, rest, hfault⟩, htells⟩ := parse_tells_first_fault hs hrejected
    obtain ⟨haccepted, -, fault, htold, hreport⟩ := htells before read rest hfault
    obtain rfl := Except.error.inj (hparse.symm.trans htold)
    exact ⟨hs, hrejected, hparse, before, read, rest, hfault, haccepted, hreport⟩
  refine ⟨htells _ _ _ (by decide) ?_, htells _ _ _ (by decide) ?_, htells _ _ _ (by decide) ?_⟩
  · with_unfolding_all rfl
  · with_unfolding_all rfl
  · with_unfolding_all rfl

end Reckoner
