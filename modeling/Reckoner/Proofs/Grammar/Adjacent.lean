/-
# `Reckoner.Proofs.Grammar.Adjacent` — neighbours in a phrase do not run together

The longest token goes on with digits behind a number, with letters behind a name and
with a star behind a star.  None of these can start the token behind it in a phrase:
behind an operand stands an operator, a parenthesis or a comma, and behind an operator
an operand, which no star starts.  So the tokens of a phrase may be written without
separators (`Derives.munches_of_layout`).
-/
import Reckoner.Proofs.Grammar.Automaton
import Reckoner.Proofs.Token.Layout

namespace Reckoner

/-! ## Behind an operator -/

theorem State.head_ne_star_of_due {stack : List Frame} {q : State} {ts : List Token}
    (h : (State.due stack).after ts = some q) (hw : ∀ t ∈ ts, t.WellFormed) :
    (ts.flatMap Token.text).head? ≠ some '*' := by
  cases ts with
  | nil => simp
  | cons t ts =>
      have ht := hw t List.mem_cons_self
      obtain ⟨c, cs, htext⟩ := List.exists_cons_of_ne_nil ht.text_ne_nil
      intro hhead
      obtain rfl : c = '*' := by simpa [htext] using hhead
      -- the two tokens made of stars spell no sign, so neither can follow
      rcases (ht.of_mem_text (by rw [htext]; exact List.mem_cons_self)).2.2 rfl with rfl | rfl
      · exact absurd h (by simp [State.after, State.step, Operator.sign?])
      · exact absurd h (by simp [State.after, State.step, Operator.sign?])

theorem State.due_of_step_operator {q q' : State} {o : Operator}
    (h : q.step (.operator o) = some q') : ∃ stack, q' = .due stack := by
  cases q with
  | due stack =>
      obtain ⟨s, _, hq⟩ := Option.map_eq_some_iff.mp h
      exact ⟨_, hq.symm⟩
  | named stack x | done stack e => exact ⟨_, (Option.some.inj h).symm⟩

theorem State.stopsBefore_operator {q q' q'' : State} {o : Operator} {u : Token}
    (h : q.step (.operator o) = some q') (hu : q'.step u = some q'') (hw : u.WellFormed) :
    (Token.operator o).StopsBefore u := by
  obtain ⟨stack, rfl⟩ := State.due_of_step_operator h
  have hafter : (State.due stack).after [u] = some q'' := by rw [State.after_singleton, hu]
  have hstar : u.text.head? ≠ some '*' := by
    simpa using State.head_ne_star_of_due hafter (List.forall_mem_singleton.mpr hw)
  intro d hd
  cases o with
  | multiply =>
      rw [Token.continuesWith, beq_eq_false_iff_ne]
      rintro rfl
      exact hstar hd
  | add | subtract | divide | modulo | power => rfl

/-! ## Behind an operand -/

/-- What can stand behind an operand starts with one of a few characters. -/
theorem State.head_of_step_operand {q q' : State} {stack : List Frame} {e : Expr} {u : Token}
    (hq : q.operand? = some (stack, e)) (hu : q.step u = some q') {d : Char}
    (hd : d ∈ u.text.head?) : d ∈ ['+', '-', '*', '/', '%', '(', ')', ','] := by
  by_cases hopen : u = .openParen
  · obtain rfl : '(' = d := by simpa [hopen, Token.text] using hd
    decide
  rw [State.step_of_operand hq hopen] at hu
  cases u with
  | number l | name x | stray c => exact absurd hu (by simp [afterOperand])
  | openParen => exact absurd rfl hopen
  | closeParen | comma =>
      obtain rfl := Option.some.inj hd
      decide
  | operator o =>
      rw [Token.text_operator] at hd
      cases o <;> obtain rfl := Option.some.inj hd <;> decide

def Token.isOperand : Token → Bool
  | .number _ | .name _ => true
  | .operator _ | .openParen | .closeParen | .comma | .stray _ => false

theorem Token.continuesWith_of_isOperand {t : Token} (ht : t.isOperand = true) :
    ∀ d ∈ ['+', '-', '*', '/', '%', '(', ')', ','], t.continuesWith d = false := by
  cases t with
  | number l | name x =>
      simp only [List.forall_mem_cons, List.not_mem_nil, false_implies, implies_true,
        Token.continuesWith]
      decide
  | operator o | openParen | closeParen | comma | stray c =>
      exact absurd ht (by simp [Token.isOperand])

theorem State.operand_of_step {q q' : State} {t : Token} (h : q.step t = some q')
    (ht : t.isOperand = true) : ∃ stack e, q'.operand? = some (stack, e) := by
  cases t with
  | number l | name x =>
      cases q with
      | due stack =>
          obtain rfl := Option.some.inj h
          exact ⟨_, _, rfl⟩
      | named stack y | done stack e => exact nomatch h
  | operator o | openParen | closeParen | comma | stray c =>
      exact absurd ht (by simp [Token.isOperand])

/-! ## Phrases -/

/-- Neighbours do not run together. -/
theorem State.stopsBefore_of_step {q q' q'' : State} {t u : Token} (ht : q.step t = some q')
    (hu : q'.step u = some q'') (hw : u.WellFormed) : t.StopsBefore u := by
  cases t with
  | operator o => exact State.stopsBefore_operator ht hu hw
  | number l | name x =>
      obtain ⟨stack, e, hq⟩ := State.operand_of_step ht rfl
      exact fun d hd =>
        Token.continuesWith_of_isOperand rfl d (State.head_of_step_operand hq hu hd)
  | openParen | closeParen | comma | stray c => exact fun _ _ => rfl

theorem State.isChain_stopsBefore {q q' : State} {ts : List Token} (h : q.after ts = some q')
    (hw : ∀ t ∈ ts, t.WellFormed) : ts.IsChain Token.StopsBefore := by
  induction ts generalizing q with
  | nil => exact .nil
  | cons t ts ih =>
      cases hs : q.step t with
      | none => exact absurd h (by simp [State.after, hs])
      | some r =>
          rw [State.after_cons hs] at h
          have hrest := ih h fun u hu => hw u (List.mem_cons_of_mem _ hu)
          cases ts with
          | nil => exact .singleton t
          | cons u us =>
              refine .cons_cons ?_ hrest
              cases hs' : r.step u with
              | none => exact absurd h (by simp [State.after, hs'])
              | some r' =>
                  exact State.stopsBefore_of_step hs hs' (hw u (by simp))

theorem Derives.munches_of_layout {ts : List Token} {e : Expr} {cs : List Char}
    (h : Derives .sum ts e) (hw : ∀ t ∈ ts, t.WellFormed) (hlayout : Layout ts cs) :
    Munches cs ts := by
  obtain ⟨q, hq, -⟩ := h.after (admits_nil .sum)
  exact hlayout.munches hw (State.isChain_stopsBefore hq hw)

end Reckoner
