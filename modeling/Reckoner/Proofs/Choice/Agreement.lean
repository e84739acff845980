/-
# `Reckoner.Proofs.Choice.Agreement` — ordered choice and the automaton agree

`Expr.parse` reads tokens once and never goes back; the grammar of ordered choice tries
and fails and reports the furthest place it came to.  Both come to the same tree, the
same literal out of range, or the same message about the same column
(`parsesAs_iff`).  What is proved of `Expr.parse` therefore holds of the grammar as it
is written down.
-/
import Reckoner.Proofs.Choice.Levels

namespace Reckoner

section Agreement

variable {s : String} (hs : Text.isEmpty s = false)

include hs

theorem Stops.parse {here : List Char} {x : Expectation}
    (h : Stops (.due []) (s.toList.dropWhile isSeparator) here x) :
    (Expr.parse s).mapError ParseError.report = .error ((x.record here).report s) := by
  obtain ⟨unread, hrun, hplace⟩ := h.run (skipped_dropWhile _)
  rw [lex_dropWhile] at hrun hplace
  rw [parse_eq hs, Expr.ofTokens, hrun, x.report_record s here, ← hplace]
  rfl

theorem Reaches.parse {ts : List Token} {q : State} {e : Expr}
    (h : Reaches (.due []) (s.toList.dropWhile isSeparator) ts q []) (hheld : q.Holds .sum [] e) :
    (Expr.parse s).mapError ParseError.report = told ts e := by
  obtain ⟨read, hlex, rfl, hafter⟩ := h.lex (skipped_dropWhile _)
  have hnil : Reckoner.lex [] = [] := by rw [Reckoner.lex]
  rw [lex_dropWhile, hnil, List.append_nil] at hlex
  have hrun : State.run (.due []) (read.map (·.token)) = .ok e :=
    State.run_eq_ok_iff.mpr ⟨q, hafter, hheld.finish⟩
  rw [parse_eq hs, hlex, Expr.ofTokens, hrun, told, firstOutOfRange]
  cases (read.map (·.token)).findSome? Token.outOfRange? <;> rfl

theorem exists_read :
    ∃ o, Matches Rule.body s.toList (.rule .expression) s.toList ⟨s.toList, []⟩ o ∧
      o.read s = (Expr.parse s).mapError ParseError.report := by
  have hle := length_dropWhile_le s.toList
  have hplace : (s.toList.dropWhile isSeparator).length < s.toList.length ∨
      s.toList.dropWhile isSeparator = s.toList :=
    (Nat.lt_or_eq_of_le hle).imp_right (List.dropWhile_sublist _).eq_of_length
  have hready : Ready [] (s.toList.dropWhile isSeparator) ⟨s.toList, []⟩ :=
    ⟨skipped_dropWhile _, hplace.imp_right fun heq => by rw [heq], fun _ _ => rfl⟩
  obtain ⟨o, hsum, hfate⟩ := phrasesBelow s.toList _ .sum (Nat.lt_succ_self _) (admits_nil .sum)
    hready
  -- a text that does not match as a whole is told where the automaton stops
  have hfail : ∀ {here x}, Stops (.due []) (s.toList.dropWhile isSeparator) here x →
      Matches Rule.body s.toList (.seq (.rule .sum) (.rule .finish))
        (s.toList.dropWhile isSeparator) ⟨s.toList, []⟩ (.missing (x.record here)) →
      ∃ o, Matches Rule.body s.toList (.rule .expression) s.toList ⟨s.toList, []⟩ o ∧
        o.read s = (Expr.parse s).mapError ParseError.report := by
    intro here x hstops hbody
    have hplace' : here.length < s.toList.length ∨ here = s.toList ∧ x = .operand := by
      rcases hstops.of_due with hlt | ⟨rfl, rfl⟩
      · exact Or.inl (Nat.lt_of_lt_of_le hlt hle)
      · exact hplace.imp_right fun heq => ⟨heq, rfl⟩
    have hnot : Matches Rule.body s.toList (.rule .expression) s.toList ⟨s.toList, []⟩ _ :=
      .notRule (.not_seq .start hbody)
    rw [Expectation.track_record hplace' (Or.inr rfl)] at hnot
    exact ⟨_, hnot, (hstops.parse hs).symm⟩
  cases hfate with
  | @whole n ts q e rest hreach hheld hended hbuild =>
      have hskip := hreach.skipped (skipped_dropWhile _)
      cases rest with
      | nil =>
          have hfinish : Matches Rule.body s.toList (.rule .finish) [] (Level.sum.record []) _ :=
            .rule .stop
          exact ⟨_, .rule (.seq .start (.seq hsum hfinish)),
            hbuild.trans (hreach.parse hs hheld).symm⟩
      | cons c w =>
          have hstuck : q.Stuck (c :: w) :=
            hheld.stuck hended .nil nofun (fun _ _ => rfl) nofun
          have hstops := hreach.stops hstuck.stops
          have hdue : q.expected = .finishOrOperator := hheld.expected
          have hfinish : Matches Rule.body s.toList (.rule .finish) (c :: w)
              (Level.sum.record (c :: w)) _ := .notRule (.notStop (List.cons_ne_nil c w))
          rw [Level.record, Tried.track_behind] at hfinish
          rw [hdue] at hstops
          exact hfail hstops (.not_seq_of_skipped hskip hsum hfinish)
  | @broken nodes rest here x hstops hblocked =>
      have hlt := hblocked.length_lt
      have hfinish : Matches Rule.body s.toList (.rule .finish) rest (x.record here) _ :=
        .notRule_ahead (.notStop (List.ne_nil_of_length_pos (Nat.zero_lt_of_lt hlt))) hlt
      exact hfail hstops (.not_seq_of_skipped hblocked.skipped hsum hfinish)
  | missing hstops => exact hfail hstops (.notFirst hsum)

end Agreement

/-- **Ordered choice.**  Reading a text by ordered choice comes to exactly one end, and that is
what `Expr.parse` gives: the same tree, or the report of the same failure. -/
theorem parsesAs_iff {s : String} {r : Except Report Expr} :
    ParsesAs s r ↔ r = (Expr.parse s).mapError ParseError.report := by
  unfold ParsesAs
  by_cases hs : Text.isEmpty s = true
  · rw [if_pos hs, Expr.parse, if_pos hs]
    rfl
  · rw [if_neg hs]
    obtain ⟨o, hmatch, hread⟩ := exists_read (Bool.eq_false_iff.mpr hs)
    constructor
    · rintro ⟨o', hmatch', rfl⟩
      rw [hmatch'.unique hmatch, hread]
    · rintro rfl
      exact ⟨o, hmatch, hread.symm⟩

/-- The furthest place is told: it lies behind the star that was taken for a product. -/
example : ParsesAs "2 ** * 3" (.error
    { kind := .malformed
      message := "Invalid syntax: expected an operand"
      notes := [("expression", "2 ** * 3"), ("position", "6")] }) :=
  parsesAs_iff.mpr (by with_unfolding_all rfl)

end Reckoner
