/-
# `Reckoner.Proofs.Choice.Reach` — the automaton on the characters of a text

Ordered choice moves along a text, the automaton along its tokens.  `Reaches` lets
the automaton move along the text as well, from the first character of a token to
that of the next, and `Stops` is the place where it can move no further.

Behind an operand only four things can follow: an operator, a closing parenthesis,
a comma between arguments, and the end.  `State.Holds.stuck` says that with all of them
ruled out the automaton stops.
-/
import Reckoner.Proofs.Choice.Words
import Reckoner.Proofs.Grammar.Place

namespace Reckoner

/-- `Reaches q cs ts q' rest`: from the state `q` the tokens `ts`, at the front of `cs`, lead to
the state `q'`, and `rest` is still to come. -/
inductive Reaches : State → List Char → List Token → State → List Char → Prop where
  | here (q : State) (cs : List Char) : Reaches q cs [] q cs
  | step {q r q' : State} {cs after rest : List Char} {t : Token} {ts : List Token} :
      next? cs = some (t, after) → q.step t = some r →
      Reaches r (after.dropWhile isSeparator) ts q' rest → Reaches q cs (t :: ts) q' rest

section Reaches

variable {q r q' : State} {cs mid rest : List Char} {ts us : List Token}

theorem Reaches.append (h : Reaches q cs ts r mid) (h' : Reaches r mid us q' rest) :
    Reaches q cs (ts ++ us) q' rest := by
  induction h with
  | here => exact h'
  | step hnext hstep _ ih => exact .step hnext hstep (ih h')

theorem Reaches.snoc {after : List Char} {t : Token} (h : Reaches q cs ts r mid)
    (hnext : next? mid = some (t, after)) (hstep : r.step t = some q') :
    Reaches q cs (ts ++ [t]) q' (after.dropWhile isSeparator) :=
  h.append (.step hnext hstep (.here _ _))

theorem Reaches.length_le (h : Reaches q cs ts q' rest) : rest.length ≤ cs.length := by
  induction h with
  | here => exact Nat.le_refl _
  | step hnext _ _ ih =>
      exact Nat.le_trans ih (Nat.le_of_lt (length_dropWhile_lt hnext))

theorem Reaches.length_lt {stack stack' : List Frame} {k : Level} {e : Expr}
    (h : Reaches (.due stack) cs ts q' rest) (hheld : q'.Holds k stack' e) :
    rest.length < cs.length := by
  cases h with
  | here =>
      obtain ⟨top, x, hq, -⟩ := hheld
      exact absurd hq (by simp [State.operand?])
  | step hnext _ hreach =>
      exact Nat.lt_of_le_of_lt hreach.length_le (length_dropWhile_lt hnext)

theorem Reaches.skipped (h : Reaches q cs ts q' rest) (hcs : Skipped cs) : Skipped rest := by
  induction h with
  | here => exact hcs
  | step _ _ _ ih => exact ih (skipped_dropWhile _)

theorem Reaches.lex (h : Reaches q cs ts q' rest) (hcs : Skipped cs) :
    ∃ read, lex cs = read ++ lex rest ∧ read.map (·.token) = ts ∧ q.after ts = some q' := by
  induction h with
  | here => exact ⟨[], rfl, rfl, rfl⟩
  | @step q r q' cs after rest t ts hnext hstep _ ih =>
      obtain ⟨read, hlex, rfl, hafter⟩ := ih (skipped_dropWhile _)
      refine ⟨⟨t, cs⟩ :: read, ?_, rfl, by rw [State.after_cons hstep, hafter]⟩
      rw [lex_of_next? hcs hnext, ← lex_dropWhile after, hlex, List.cons_append]

end Reaches

/-! ## Where the automaton stops -/

/-- The state takes neither what comes next nor the end. -/
def State.Stuck (q : State) (cs : List Char) : Prop :=
  match next? cs with
  | none => q.finish = none
  | some (t, _) => q.step t = none

/-- `Stops q cs here x`: from the state `q` the automaton comes as far as `here`, where `x` is
due. -/
def Stops (q : State) (cs here : List Char) (x : Expectation) : Prop :=
  ∃ ts q', Reaches q cs ts q' here ∧ q'.Stuck here ∧ q'.expected = x

section Stops

variable {q q' : State} {cs mid here : List Char} {ts : List Token} {x : Expectation}

theorem State.Stuck.stops (h : q.Stuck cs) : Stops q cs cs q.expected :=
  ⟨[], q, .here q cs, h, rfl⟩

theorem Reaches.stops (h : Reaches q cs ts q' mid) (hstops : Stops q' mid here x) :
    Stops q cs here x := by
  obtain ⟨us, q'', hreach, hstuck⟩ := hstops
  exact ⟨ts ++ us, q'', h.append hreach, hstuck⟩

theorem Stops.length_le (h : Stops q cs here x) : here.length ≤ cs.length := by
  obtain ⟨ts, q', hreach, -⟩ := h
  exact hreach.length_le

/-- Where an operand is due, the automaton goes on, or an operand is still due. -/
theorem Stops.of_due {stack : List Frame} (h : Stops (.due stack) cs here x) :
    here.length < cs.length ∨ here = cs ∧ x = .operand := by
  obtain ⟨ts, q', hreach, -, hx⟩ := h
  cases hreach with
  | here => exact Or.inr ⟨rfl, hx.symm⟩
  | step hnext _ hreach =>
      exact Or.inl (Nat.lt_of_le_of_lt hreach.length_le (length_dropWhile_lt hnext))

theorem Stops.run (h : Stops q cs here x) (hcs : Skipped cs) :
    ∃ unread, q.run ((lex cs).map (·.token)) = .error ⟨x, unread⟩ ∧
      textAt (lex cs) unread = here := by
  obtain ⟨ts, q', hreach, hstuck, rfl⟩ := h
  obtain ⟨read, hlex, rfl, hafter⟩ := hreach.lex hcs
  have hskipped := hreach.skipped hcs
  have hhere : hereOf (lex here) = here ∧
      q'.run ((lex here).map (·.token)) = .error ⟨q'.expected, (lex here).map (·.token)⟩ := by
    unfold State.Stuck at hstuck
    cases hnext : next? here with
    | none =>
        have hnil : here = [] := by
          cases here with
          | nil => rfl
          | cons c w => exact nomatch hnext
        subst hnil
        rw [hnext] at hstuck
        rw [Reckoner.lex]
        exact ⟨rfl, by rw [List.map_nil, State.run, hstuck]⟩
    | some p =>
        rw [hnext] at hstuck
        rw [lex_of_next? hskipped hnext]
        exact ⟨rfl, by rw [List.map_cons, State.run, hstuck]⟩
  refine ⟨(Reckoner.lex here).map (·.token), ?_, ?_⟩
  · rw [hlex, List.map_append, State.run_append hafter, hhere.2]
  · rw [hlex, textAt_append, hhere.1]

end Stops

/-! ## Behind an operand -/

/-- The frames below an operand, up to the innermost open parenthesis: there is none, or the top
frame is that parenthesis. -/
inductive Bottom : List Frame → Prop where
  | nil : Bottom []
  | isOpen {f : Frame} (outer : List Frame) : f.isOpen = true → Bottom (f :: outer)

/-- Nothing that `rest` starts with goes on with a phrase at level `k`: neither an operator of this
level or a tighter one, nor the parenthesis of a call. -/
structure Ended (k : Level) (q : State) (rest : List Char) : Prop where
  operator : ∀ o r, next? rest = some (.operator o, r) → o.level.rank < k.rank
  openParen : ∀ r, next? rest = some (.openParen, r) → q.step .openParen = none

theorem State.Holds.expected {q : State} {k : Level} {stack : List Frame} {e : Expr}
    (h : q.Holds k stack e) :
    q.expected = if stack.any Frame.isOpen then .operator else .finishOrOperator := by
  obtain ⟨top, x, hq, hs⟩ := h.settle_sum
  have hcount : openCount top = openCount stack := by
    rw [← openCount_dropWhile top, ← openCount_dropWhile stack, ← settle_sum_fst top x,
      ← settle_sum_fst stack e, hs]
  rw [any_isOpen, ← hcount, ← any_isOpen]
  cases q with
  | due stack => exact absurd hq (by simp [State.operand?])
  | named stack y | done stack y =>
      obtain ⟨rfl, rfl⟩ := Prod.mk.inj (Option.some.inj hq)
      rfl

/-- With all that may follow ruled out, the automaton is stuck behind an operand. -/
theorem State.Holds.stuck {q : State} {stack : List Frame} {e : Expr} {rest : List Char}
    (h : q.Holds .sum stack e) (hended : Ended .sum q rest) (hstack : Bottom stack)
    (hend : next? rest = none → stack ≠ [])
    (hclose : ∀ r, next? rest = some (.closeParen, r) → stack = [])
    (hcomma : ∀ f es outer r, stack = .call f es :: outer → next? rest ≠ some (.comma, r)) :
    q.Stuck rest := by
  obtain ⟨top, x, hq, hs⟩ := h.settle_sum
  have hrests : Rests .sum stack := by
    cases hstack with
    | nil => exact fun f hf => nomatch hf
    | isOpen outer hf => exact rests_of_isOpen hf outer
  rw [settle_of_rests hrests] at hs
  unfold State.Stuck
  cases hnext : next? rest with
  | none =>
      cases stack with
      | nil => exact absurd rfl (hend hnext)
      | cons f outer =>
          rw [State.finish_of_operand hq, finishWith, hs]
  | some p =>
      obtain ⟨t, r⟩ := p
      show q.step t = none
      by_cases ht : t = .openParen
      · subst ht
        exact hended.openParen r hnext
      · rw [State.step_of_operand hq ht]
        cases t with
        | operator o =>
            have hlt := hended.operator o r hnext
            exact absurd (Level.sum_rank_le o.level) (by omega)
        | closeParen =>
            obtain rfl := hclose r hnext
            rw [afterOperand, hs]
        | comma =>
            rw [afterOperand, hs]
            cases stack with
            | nil => rfl
            | cons f outer =>
                cases f with
                | call g es => exact absurd hnext (hcomma g es outer r rfl)
                | signed s | binary o l | group => rfl
        | openParen => exact absurd rfl ht
        | number l | name y | stray c => rfl

end Reckoner
