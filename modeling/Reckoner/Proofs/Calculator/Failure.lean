/-
# `Reckoner.Proofs.Calculator.Failure` — which failure of a text is reported, and how

A text may be wrong in several ways at once: too long, nested too deeply, blank, against
the grammar, with a literal out of range, without a value.  `Stage.Fails` says of each way
by itself when a text is wrong in it, and does not ask about the others; the outcome of
the calculator is the first stage that fails (`Calculator.evaluate_cases`).

The reports have a discipline.  A refusal by the limits has no notes, and only the last
stage labels its report: with the text, and before it with one thing that has gone wrong, a
variable, a routine or an operator.  No report has two notes under one key.
-/
import Reckoner.Calculator
import Reckoner.Proofs.Expr.Fault
import Reckoner.Proofs.Grammar.Place
import Reckoner.Proofs.Settings.Nesting

namespace Reckoner

/-! ## Stages -/

/-- The ways in which a text can be wrong. -/
inductive Stage where
  | length
  | depth
  | blank
  | grammar
  | literal
  | value
  deriving DecidableEq, Repr

/-- The order in which they are told. -/
def Stage.rank : Stage → Nat
  | .length => 1
  | .depth => 2
  | .blank => 3
  | .grammar => 4
  | .literal => 5
  | .value => 6

/-- The text is wrong in this way, whatever else is wrong with it. -/
def Stage.Fails (c : Calculator) (vars : Bindings) (text : String) : Stage → Prop
  | .length => c.settings.maxLength < text.length
  | .depth => c.settings.maxDepth < nestingDepth text
  | .blank => Text.isEmpty text = true
  | .grammar => ¬ Accepted text.toList
  | .literal => ∃ ts l, Munches text.toList ts ∧ .number l ∈ ts ∧ l.value.isFinite = false
  | .value => ∃ ts e fault, Munches text.toList ts ∧ Sentence .sum ts e ∧
      e.eval c.registry vars = .error fault

/-- The text is not wrong in any way that is told before. -/
def Stage.Reached (s : Stage) (c : Calculator) (vars : Bindings) (text : String) : Prop :=
  ∀ s' : Stage, s'.rank < s.rank → ¬ s'.Fails c vars text

/-- The text is wrong in this way, and in none that is told before. -/
structure Stage.IsFirst (s : Stage) (c : Calculator) (vars : Bindings) (text : String) : Prop where
  reached : s.Reached c vars text
  fails : s.Fails c vars text

def Failure.stage : Failure → Stage
  | .limit (.tooLong ..) => .length
  | .limit (.tooDeep ..) => .depth
  | .parse .empty => .blank
  | .parse (.unexpected ..) => .grammar
  | .parse (.literalOutOfRange _) => .literal
  | .eval .. => .value

theorem Stage.rank_injective {s s' : Stage} (h : s.rank = s'.rank) : s = s' := by
  revert h
  cases s <;> cases s' <;> decide

section

variable {c : Calculator} {vars : Bindings} {text : String}

theorem Stage.IsFirst.unique {s s' : Stage} (h : s.IsFirst c vars text)
    (h' : s'.IsFirst c vars text) : s = s' := by
  rcases Nat.lt_trichotomy s.rank s'.rank with hlt | heq | hlt
  · exact absurd h.fails (h'.reached s hlt)
  · exact Stage.rank_injective heq
  · exact absurd h'.fails (h.reached s' hlt)

theorem Stage.reached_length : Stage.length.Reached c vars text := by
  intro s hs
  cases s <;> exact absurd hs (by decide)

theorem Stage.Reached.next {s : Stage} (h : s.Reached c vars text) (hs : ¬ s.Fails c vars text)
    (s' : Stage) (hnext : s'.rank = s.rank + 1) : s'.Reached c vars text := by
  intro t ht
  rcases Nat.lt_or_eq_of_le (Nat.le_of_lt_succ (hnext ▸ ht)) with hlt | heq
  · exact h t hlt
  · rw [Stage.rank_injective heq]
    exact hs

theorem Stage.Reached.not_fails (h : Stage.value.Reached c vars text)
    (hvalue : ¬ Stage.value.Fails c vars text) (s : Stage) : ¬ s.Fails c vars text := by
  have hle : s.rank ≤ Stage.value.rank := by cases s <;> decide
  rcases Nat.lt_or_eq_of_le hle with hlt | heq
  · exact h s hlt
  · rw [Stage.rank_injective heq]
    exact hvalue

end

/-! ## One stage after the other -/

theorem parse_cases {text : String} (htext : Text.isEmpty text = false) :
    (¬ Accepted text.toList ∧
      ∃ column expected, Expr.parse text = .error (.unexpected text column expected)) ∨
    ∃ ts e, Munches text.toList ts ∧ Sentence .sum ts e ∧
      ((∃ l, .number l ∈ ts ∧ l.value.isFinite = false ∧
          Expr.parse text = .error (.literalOutOfRange l)) ∨
        (∀ l, .number l ∈ ts → l.value.isFinite = true) ∧ Expr.parse text = .ok e) := by
  rw [parse_eq htext]
  cases hread : Expr.ofTokens ((lex text.toList).map (·.token)) with
  | error stop =>
      left
      refine ⟨?_, _, _, rfl⟩
      rintro ⟨ts, e, hts, hsentence⟩
      have hderives := derives_lex_iff.mpr ⟨ts, hts, hsentence⟩
      exact nomatch hread.symm.trans (ofTokens_eq_ok_iff.mpr hderives)
  | ok e =>
      right
      obtain ⟨ts, hts, hsentence⟩ := derives_lex_iff.mp (ofTokens_eq_ok_iff.mp hread)
      refine ⟨ts, e, hts, hsentence, ?_⟩
      rw [(munches_iff.mp hts).1]
      cases hliteral : ts.findSome? Token.outOfRange? with
      | none => exact Or.inr ⟨findSome?_outOfRange?_eq_none_iff.mp hliteral, rfl⟩
      | some l =>
          obtain ⟨t, ht, htl⟩ := List.exists_of_findSome?_eq_some hliteral
          obtain ⟨rfl, hfinite⟩ := number_of_outOfRange? htl
          exact Or.inl ⟨l, ht, hfinite, rfl⟩

variable {c : Calculator} {vars : Bindings} {text : String}

theorem Calculator.evaluate_of_check (h : c.settings.check text = .ok ()) :
    c.evaluate vars text = evaluateText c.registry vars text := by
  rw [Calculator.evaluate, h]
  rfl

theorem evaluateText_of_error {r : Registry} {error : ParseError}
    (h : Expr.parse text = .error error) :
    evaluateText r vars text = .error (.parse error) := by
  rw [evaluateText, h]
  rfl

theorem evaluateText_of_ok {r : Registry} {e : Expr} (h : Expr.parse text = .ok e) :
    evaluateText r vars text = (e.eval r vars).mapError (.eval text) := by
  rw [evaluateText, h]
  rfl

theorem eq_of_munches {ts ts' : List Token} {e e' : Expr} (hts : Munches text.toList ts)
    (hts' : Munches text.toList ts') (h : Sentence .sum ts e) (h' : Sentence .sum ts' e') :
    e = e' := by
  obtain rfl := hts.unique hts'
  exact h.derives.unique h'.derives

/-- The outcome for a text: the failure of its first stage that fails, or a value if none does. -/
theorem Calculator.evaluate_cases (c : Calculator) (vars : Bindings) (text : String) :
    (∃ failure, c.evaluate vars text = .error failure ∧ failure.stage.IsFirst c vars text) ∨
    ∃ v, c.evaluate vars text = .ok v ∧ ∀ s : Stage, ¬ s.Fails c vars text := by
  -- `hreached` says of one stage after the other that the evaluation comes to it.
  have hreached : Stage.length.Reached c vars text := Stage.reached_length
  by_cases hlength : c.settings.maxLength < text.length
  · left
    refine ⟨.limit (.tooLong text.length c.settings.maxLength), ?_, hreached, hlength⟩
    rw [Calculator.evaluate, Settings.check, if_pos hlength]
    rfl
  have hreached := hreached.next hlength .depth rfl
  by_cases hdepth : c.settings.maxDepth < nestingDepth text
  · left
    refine ⟨.limit (.tooDeep (nestingDepth text) c.settings.maxDepth), ?_, hreached, hdepth⟩
    rw [Calculator.evaluate, Settings.check, if_neg hlength, if_pos hdepth]
    rfl
  have hcheck := check_eq_ok_iff.mpr ⟨Nat.le_of_not_lt hlength, Nat.le_of_not_lt hdepth⟩
  rw [Calculator.evaluate_of_check hcheck]
  have hreached := hreached.next hdepth .blank rfl
  by_cases hblank : Text.isEmpty text = true
  · exact Or.inl ⟨.parse .empty, evaluateText_of_error (if_pos hblank), hreached, hblank⟩
  have hreached := hreached.next hblank .grammar rfl
  rcases parse_cases (Bool.eq_false_iff.mpr hblank) with
    ⟨hgrammar, column, expected, hparse⟩ | ⟨ts, e, hts, hsentence, hread⟩
  · exact Or.inl ⟨_, evaluateText_of_error hparse, hreached, hgrammar⟩
  have hreached := hreached.next (fun h => h ⟨ts, e, hts, hsentence⟩) .literal rfl
  rcases hread with ⟨l, hl, hfinite, hparse⟩ | ⟨hrange, hparse⟩
  · exact Or.inl ⟨_, evaluateText_of_error hparse, hreached, ts, l, hts, hl, hfinite⟩
  have hliteral : ¬ Stage.literal.Fails c vars text := by
    rintro ⟨ts', l, hts', hl, hfinite⟩
    obtain rfl := hts.unique hts'
    exact nomatch hfinite.symm.trans (hrange l hl)
  have hreached := hreached.next hliteral .value rfl
  rw [evaluateText_of_ok hparse]
  cases heval : e.eval c.registry vars with
  | error fault =>
      exact Or.inl ⟨.eval text fault, rfl, hreached, ts, e, fault, hts, hsentence, heval⟩
  | ok v =>
      right
      refine ⟨v, rfl, hreached.not_fails ?_⟩
      rintro ⟨ts', e', fault, hts', hsentence', heval'⟩
      obtain rfl := eq_of_munches hts hts' hsentence hsentence'
      exact nomatch heval.symm.trans heval'

theorem Calculator.evaluate_stage_iff {s : Stage} :
    (∃ failure, c.evaluate vars text = .error failure ∧ failure.stage = s) ↔
      s.IsFirst c vars text := by
  rcases c.evaluate_cases vars text with ⟨failure, heval, hfirst⟩ | ⟨v, heval, hnone⟩
  · constructor
    · rintro ⟨failure', heval', rfl⟩
      obtain rfl := Except.error.inj (heval.symm.trans heval')
      exact hfirst
    · intro hs
      exact ⟨failure, heval, hfirst.unique hs⟩
  · constructor
    · rintro ⟨failure, heval', -⟩
      exact nomatch heval.symm.trans heval'
    · intro hs
      exact absurd hs.fails (hnone s)

/-! ## Labels -/

/-- The one note of a fault: what has gone wrong, under one of three keys. -/
theorem EvalFault.exists_label (fault : EvalFault) :
    ∃ key ∈ ["variable", "function", "operator"], ∃ value, fault.report.notes = [(key, value)] := by
  cases fault with
  | unknownVariable x => exact ⟨"variable", by decide, x, rfl⟩
  | unknownRoutine f => exact ⟨"function", by decide, f, rfl⟩
  | operator o cause =>
      rw [report_operator]
      exact ⟨"operator", by decide, o.symbol, rfl⟩
  | call f cause => exact ⟨"function", by decide, f, rfl⟩

theorem EvalFault.kind_cases (fault : EvalFault) :
    fault.report.kind = .malformed ∨ fault.report.kind = .evaluation ∨
      fault.report.kind = .zeroDivision := by
  cases fault with
  | unknownVariable x | unknownRoutine f => exact Or.inl rfl
  | operator o cause =>
      rw [report_operator]
      exact Or.inr cause.kind_cases.symm
  | call f cause => exact Or.inr (Or.inl rfl)

theorem Report.notes_note {report : Report} (h : report.kind ≠ .unexpected) (key value : String) :
    (report.note key value).notes = report.notes ++ [(key, value)] := by
  rw [Report.note, if_neg h]

theorem Report.kind_note (report : Report) (key value : String) :
    (report.note key value).kind = report.kind := by
  rw [Report.note]
  split
  · rfl
  · rfl

theorem Failure.exists_label (text : String) (fault : EvalFault) :
    ∃ key ∈ ["variable", "function", "operator"], ∃ value,
      (Failure.eval text fault).report.notes = [(key, value), ("expression", Text.trim text)] := by
  obtain ⟨key, hkey, value, hnotes⟩ := fault.exists_label
  have hkind : fault.report.kind ≠ .unexpected := by
    intro h
    rcases fault.kind_cases with h' | h' | h' <;> exact nomatch h.symm.trans h'
  refine ⟨key, hkey, value, ?_⟩
  rw [Failure.report, Report.notes_note hkind, hnotes]
  rfl

theorem Failure.kind_cases (failure : Failure) :
    failure.report.kind = .malformed ∨ failure.report.kind = .evaluation ∨
      failure.report.kind = .zeroDivision := by
  cases failure with
  | limit fault => cases fault <;> exact Or.inl rfl
  | parse error => cases error <;> exact Or.inl rfl
  | eval text fault =>
      rw [Failure.report, Report.kind_note]
      exact fault.kind_cases

theorem Failure.nodup_keys (failure : Failure) : (failure.report.notes.map Prod.fst).Nodup := by
  cases failure with
  | limit fault => cases fault <;> exact List.nodup_nil
  | parse error =>
      cases error with
      | empty => exact List.nodup_nil
      | unexpected text column expected =>
          show ["expression", "position"].Nodup
          decide
      | literalOutOfRange l => exact List.pairwise_singleton _ _
  | eval text fault =>
      obtain ⟨key, hkey, value, hnotes⟩ := Failure.exists_label text fault
      have hne : key ≠ "expression" := by
        rintro rfl
        exact absurd hkey (by decide)
      rw [hnotes]
      exact List.nodup_cons.mpr ⟨by simpa using hne, List.pairwise_singleton _ _⟩

theorem Failure.notes_of_limit {failure : Failure}
    (h : failure.stage = .length ∨ failure.stage = .depth) : failure.report.notes = [] := by
  cases failure with
  | limit fault => cases fault <;> rfl
  | parse error => cases error <;> exact absurd h (by simp [Failure.stage])
  | eval text fault => exact absurd h (by simp [Failure.stage])

/-- **Failures in order.**  Of all the ways in which a text is wrong, the first is told, and a text
that is wrong in no way has a value.  A failure is malformed, an evaluation failure or a division by
zero; no key of its report has two notes, and a refusal by the limits has none at all.  When the
text is within the limits and has a tree, the report has two notes: what has gone wrong, a variable,
a routine or an operator, and the text without its margins.  It is malformed exactly when evaluation
stops at a name that stands for nothing, and a division by zero exactly when evaluation stops at a
quotient or a remainder whose right operand is a zero. -/
theorem failure_classified (c : Calculator) (vars : Bindings) (text : String) :
    (∀ s : Stage, (∃ failure, c.evaluate vars text = .error failure ∧ failure.stage = s) ↔
      s.IsFirst c vars text) ∧
    ∀ failure, c.evaluate vars text = .error failure →
      (failure.report.kind = .malformed ∨ failure.report.kind = .evaluation ∨
        failure.report.kind = .zeroDivision) ∧
      (failure.report.notes.map Prod.fst).Nodup ∧
      (failure.stage = .length ∨ failure.stage = .depth → failure.report.notes = []) ∧
      ∀ e, c.settings.check text = .ok () → Expr.parse text = .ok e →
        (∃ key ∈ ["variable", "function", "operator"], ∃ value,
          failure.report.notes = [(key, value), ("expression", Text.trim text)]) ∧
        (failure.report.kind = .malformed ↔
          (∃ x, e.StopsAt c.registry vars (.leave (.name x)) ∧ vars.get? x = none) ∨
            ∃ f, e.StopsAt c.registry vars (.enter f) ∧ c.registry.get? f = none) ∧
        (failure.report.isZeroDivision = true ↔
          ∃ o a b y, e.StopsAt c.registry vars (.leave (.binary o a b)) ∧
            (o = .divide ∨ o = .modulo) ∧ b.eval c.registry vars = .ok y ∧
            (y.toFloat == 0.0) = true) := by
  refine ⟨fun s => Calculator.evaluate_stage_iff, fun failure hfailure => ?_⟩
  refine ⟨failure.kind_cases, failure.nodup_keys, Failure.notes_of_limit, ?_⟩
  intro e hcheck hparse
  rw [Calculator.evaluate_of_check hcheck, evaluateText_of_ok hparse] at hfailure
  obtain ⟨fault, hfault, rfl⟩ := mapError_eq_error_iff.mp hfailure
  refine ⟨Failure.exists_label text fault, ?_, ?_⟩
  · rw [Failure.report, Report.kind_note]
    exact Expr.kind_eq_malformed_iff hfault
  · rw [Failure.report, Report.isZeroDivision, Report.kind_note]
    exact Expr.isZeroDivision_iff hfault

/-- A remainder by a zero that is computed.  The unknown variable behind it is not come to, and the
report has the text without its margins. -/
theorem failure_classified_modulo :
    let text : String := " 7 % (x - x) + y "
    let vars : Bindings := [("x", 2.0)]
    let e : Expr := .binary .add
      (.binary .modulo (.number (.ofFloat (Decimal.Literal.value ⟨['7'], [], none⟩)))
        (.binary .subtract (.name "x") (.name "x")))
      (.name "y")
    let failure : Failure := .eval text (.operator .modulo .moduloByZero)
    ({} : Calculator).evaluate vars text = .error failure ∧
      ({} : Settings).check text = .ok () ∧ Expr.parse text = .ok e ∧
      Stage.value.IsFirst {} vars text ∧ (failure.report.notes.map Prod.fst).Nodup ∧
      failure.report.notes = [("operator", "%"), ("expression", "7 % (x - x) + y")] ∧
      ∃ o a b y, e.StopsAt .standard vars (.leave (.binary o a b)) ∧ (o = .divide ∨ o = .modulo) ∧
        b.eval .standard vars = .ok y ∧ (y.toFloat == 0.0) = true := by
  intro text vars e failure
  have hcheck : ({} : Settings).check text = .ok () := by decide +kernel
  have hparse : Expr.parse " 7 % (x - x) + y " = .ok e := by with_unfolding_all rfl
  have hfault : e.eval .standard vars = .error (.operator .modulo .moduloByZero) := by
    with_unfolding_all rfl
  have heval : ({} : Calculator).evaluate vars text = .error failure := by
    rw [Calculator.evaluate_of_check hcheck, evaluateText_of_ok hparse, hfault]
    rfl
  obtain ⟨hstage, htold⟩ := failure_classified {} vars text
  obtain ⟨-, hnodup, -, hlabel⟩ := htold failure heval
  obtain ⟨-, -, hzero⟩ := hlabel e hcheck hparse
  exact ⟨heval, hcheck, hparse, (hstage .value).mp ⟨failure, heval, rfl⟩, hnodup,
    by decide +kernel, hzero.mp rfl⟩

end Reckoner
