/-
# `Reckoner.Proofs.Grammar.Viable` — the reader stops at the first token that cannot follow

Tokens are *viable* when some sentence starts with them.  Whatever the reader has
read is viable, because every one of its states can be brought to an end: supply the
operand that is due, then close the open parentheses (`State.exists_finish`).  And a
token at which it stops makes viable tokens no longer viable, since the reader takes
every token of every sentence.  So it stops at the first token that cannot follow,
never earlier and never later (`ofTokens_stop`).

What was due there can be read off the tokens before (`State.Read.expected_text`):
their last one tells whether an operand has ended, and the parentheses among them
whether one is open.
-/
import Reckoner.Proofs.Grammar.Sentence
import Reckoner.Proofs.Token.Spelling

namespace Reckoner

/-- Some sentence starts with the tokens, and goes on with words of the grammar. -/
def Viable (read : List Token) : Prop :=
  ∃ post e, (∀ t ∈ post, t.WellFormed) ∧ Sentence .sum (read ++ post) e

theorem Viable.of_append {ts us : List Token} (h : Viable (ts ++ us))
    (hus : ∀ u ∈ us, u.WellFormed) : Viable ts := by
  obtain ⟨post, e, hpost, hsentence⟩ := h
  rw [List.append_assoc] at hsentence
  exact ⟨us ++ post, e, List.forall_mem_append.mpr ⟨hus, hpost⟩, hsentence⟩

/-! ## Every state can be brought to an end -/

/-- Nothing but an open parenthesis waits for the end. -/
theorem settle_sum_fst (stack : List Frame) (e : Expr) :
    (settle .sum stack e).1 = stack.dropWhile fun f => !f.isOpen := by
  fun_induction settle .sum stack e with
  | case1 s outer e hk ih => rw [List.dropWhile_cons_of_pos (by rfl)]; exact ih
  | case2 s outer e hk => exact absurd (Level.sum_rank_le .signed) hk
  | case3 o l outer e hk ih => rw [List.dropWhile_cons_of_pos (by rfl)]; exact ih
  | case4 o l outer e hk => exact absurd (Level.sum_rank_le o.level) hk
  | case5 stack e hs hb =>
      cases stack with
      | nil => rfl
      | cons f outer =>
          cases f with
          | signed s => exact absurd rfl (hs s outer)
          | binary o l => exact absurd rfl (hb o l outer)
          | group | call g es => rfl

def openCount (stack : List Frame) : Nat := stack.countP Frame.isOpen

@[simp] theorem openCount_cons (f : Frame) (stack : List Frame) :
    openCount (f :: stack) = openCount stack + f.isOpen.toNat := by
  cases hf : f.isOpen with
  | true => exact List.countP_cons_of_pos hf
  | false => exact List.countP_cons_of_neg (by simp [hf])

theorem openCount_dropWhile (stack : List Frame) :
    openCount (stack.dropWhile fun f => !f.isOpen) = openCount stack := by
  induction stack with
  | nil => rfl
  | cons f outer ih =>
      cases hf : f.isOpen with
      | true => rw [List.dropWhile_cons_of_neg (by simp [hf])]
      | false =>
          rw [List.dropWhile_cons_of_pos (by simp [hf]), ih, openCount_cons, hf]
          rfl

theorem close_or_finish (stack : List Frame) (e : Expr) :
    (openCount stack = 0 ∧ ∃ whole, finishWith stack e = some whole) ∨
    ∃ outer e', afterOperand stack e .closeParen = some (.done outer e') ∧
      openCount stack = openCount outer + 1 := by
  have hfst := settle_sum_fst stack e
  have hcount := openCount_dropWhile stack
  rw [← hfst] at hcount
  rcases hs : settle .sum stack e with ⟨top, inner⟩
  rw [hs] at hfst hcount
  cases top with
  | nil => exact Or.inl ⟨hcount.symm, inner, by rw [finishWith, hs]⟩
  | cons f outer =>
      have hf : f.isOpen = true := by
        have := List.head?_dropWhile_not (fun f => !f.isOpen) stack
        rw [← hfst] at this
        simpa using this
      have hmore : openCount stack = openCount outer + 1 := by
        rw [← hcount, openCount_cons, hf]
        rfl
      cases f with
      | signed s | binary o l => exact absurd hf (by simp [Frame.isOpen])
      | group => exact Or.inr ⟨outer, _, by rw [afterOperand, hs], hmore⟩
      | call g es => exact Or.inr ⟨outer, _, by rw [afterOperand, hs], hmore⟩

theorem exists_finish_of_operand (n : Nat) : ∀ {q : State} {stack : List Frame} {e : Expr},
    q.operand? = some (stack, e) → openCount stack = n →
      ∃ post q' whole, (∀ t ∈ post, t.WellFormed) ∧ q.after post = some q' ∧
        q'.finish = some whole := by
  induction n with
  | zero =>
      intro q stack e hq hn
      rcases close_or_finish stack e with ⟨-, whole, hwhole⟩ | ⟨outer, e', -, hcount⟩
      · exact ⟨[], q, whole, by simp, rfl, (State.finish_of_operand hq).trans hwhole⟩
      · omega
  | succ n ih =>
      intro q stack e hq hn
      rcases close_or_finish stack e with ⟨hzero, -⟩ | ⟨outer, e', hclose, hcount⟩
      · omega
      · obtain ⟨post, q', whole, hw, hpost, hwhole⟩ :=
          ih (q := .done outer e') rfl (by omega)
        have hstep : q.step .closeParen = some (.done outer e') :=
          (State.step_of_operand hq (by simp)).trans hclose
        refine ⟨.closeParen :: post, q', whole, ?_, by rw [State.after_cons hstep, hpost], hwhole⟩
        exact List.forall_mem_cons.mpr ⟨trivial, hw⟩

theorem State.exists_finish (q : State) :
    ∃ post q' whole, (∀ t ∈ post, t.WellFormed) ∧ q.after post = some q' ∧
      q'.finish = some whole := by
  cases q with
  | named stack x =>
      have hoperand : (State.named stack x).operand? = some (stack, .name x) := rfl
      exact exists_finish_of_operand _ hoperand rfl
  | done stack e =>
      have hoperand : (State.done stack e).operand? = some (stack, e) := rfl
      exact exists_finish_of_operand _ hoperand rfl
  | due stack =>
      have hoperand : (State.named stack "x").operand? = some (stack, .name "x") := rfl
      obtain ⟨post, q', whole, hw, hpost, hwhole⟩ := exists_finish_of_operand _ hoperand rfl
      have hstep : (State.due stack).step (.name "x") = some (.named stack "x") := rfl
      have hname : (Token.name "x").WellFormed := ⟨'x', [], rfl, by decide, by simp⟩
      refine ⟨.name "x" :: post, q', whole, ?_, by rw [State.after_cons hstep, hpost], hwhole⟩
      exact List.forall_mem_cons.mpr ⟨hname, hw⟩

/-! ## What is read is viable -/

theorem sentence_iff_after {ts : List Token} {e : Expr} :
    Sentence .sum ts e ↔ ∃ q, (State.due []).after ts = some q ∧ q.finish = some e := by
  rw [sentence_iff_derives, ← ofTokens_eq_ok_iff, Expr.ofTokens, State.run_eq_ok_iff]

theorem viable_of_after {ts : List Token} {q : State} (h : (State.due []).after ts = some q) :
    Viable ts := by
  obtain ⟨post, q', whole, hw, hpost, hwhole⟩ := q.exists_finish
  exact ⟨post, whole, hw,
    sentence_iff_after.mpr ⟨q', by rw [State.after_append h, hpost], hwhole⟩⟩

theorem not_viable_of_step_eq_none {ts : List Token} {q : State} {t : Token}
    (h : (State.due []).after ts = some q) (hstep : q.step t = none) : ¬ Viable (ts ++ [t]) := by
  rintro ⟨post, e, -, hsentence⟩
  obtain ⟨q', hq', -⟩ := sentence_iff_after.mp hsentence
  rw [List.append_assoc, State.after_append h] at hq'
  exact absurd hq' (by simp [State.after, hstep])

theorem not_sentence_of_finish_eq_none {ts : List Token} {q : State}
    (h : (State.due []).after ts = some q) (hfinish : q.finish = none) (e : Expr) :
    ¬ Sentence .sum ts e := by
  intro hsentence
  obtain ⟨q', hq', hwhole⟩ := sentence_iff_after.mp hsentence
  obtain rfl : q = q' := Option.some.inj (h.symm.trans hq')
  exact absurd (hfinish.symm.trans hwhole) (by simp)

theorem State.run_eq_error {q : State} {ts : List Token} {stop : Stop}
    (h : q.run ts = .error stop) :
    ∃ read q', ts = read ++ stop.unread ∧ q.after read = some q' ∧ stop.expected = q'.expected ∧
      (stop.unread = [] → q'.finish = none) ∧
      ∀ t post, stop.unread = t :: post → q'.step t = none := by
  induction ts generalizing q with
  | nil =>
      rw [State.run] at h
      cases hf : q.finish with
      | some e => exact absurd h (by simp [hf])
      | none =>
          rw [hf] at h
          obtain rfl := Except.error.inj h
          exact ⟨[], q, rfl, rfl, rfl, fun _ => hf,
            fun _ _ h => absurd h.symm (List.cons_ne_nil _ _)⟩
  | cons t ts ih =>
      rw [State.run] at h
      cases hs : q.step t with
      | some q' =>
          rw [hs] at h
          obtain ⟨read, r, hts, hread, hstop⟩ := ih h
          exact ⟨t :: read, r, by rw [hts, List.cons_append], by rw [State.after_cons hs, hread],
            hstop⟩
      | none =>
          rw [hs] at h
          obtain rfl := Except.error.inj h
          refine ⟨[], q, rfl, rfl, rfl, fun h => absurd h (List.cons_ne_nil _ _), ?_⟩
          intro u post h
          obtain ⟨rfl, -⟩ := List.cons.inj h
          exact hs

/-! ## What is due -/

def Token.endsOperand : Token → Bool
  | .number _ | .name _ | .closeParen => true
  | .operator _ | .openParen | .comma | .stray _ => false

def endsOperand (read : List Token) : Bool := read.getLast?.any Token.endsOperand

theorem endsOperand_snoc (ts : List Token) (t : Token) :
    endsOperand (ts ++ [t]) = t.endsOperand := by
  rw [endsOperand, List.getLast?_concat, Option.any_some]

theorem endsOperand_append (ts : List Token) {us : List Token} (h : us ≠ []) :
    endsOperand (ts ++ us) = endsOperand us := by
  rw [endsOperand, endsOperand, List.getLast?_append, List.getLast?_eq_some_getLast h]
  rfl

theorem ne_nil_of_endsOperand {ts : List Token} (h : endsOperand ts = true) : ts ≠ [] := by
  rintro rfl
  exact absurd h (by decide)

/-- What is due behind some tokens, in words. -/
def dueText (read : List Token) : String :=
  if endsOperand read then
    if read.count .closeParen < read.count .openParen then "an operator"
    else "end of input or an operator"
  else "an operand"

mutual
theorem Derives.balanced : ∀ {k : Level} {ts : List Token} {e : Expr}, Derives k ts e →
    ts.count .openParen = ts.count .closeParen ∧ endsOperand ts = true
  | _, _, _, .number l => ⟨rfl, rfl⟩
  | _, _, _, .name x => ⟨rfl, rfl⟩
  | _, _, _, .group h => by
      refine ⟨by simp [h.balanced.1], ?_⟩
      rw [← List.cons_append, endsOperand_snoc]
      rfl
  | _, _, _, .callNothing f => ⟨rfl, rfl⟩
  | _, _, _, .call f h => by
      refine ⟨by simp [h.balanced], ?_⟩
      rw [← List.cons_append, ← List.cons_append, endsOperand_snoc]
      rfl
  | _, _, _, .signed (o := o) _ h => by
      obtain ⟨hcount, hends⟩ := h.balanced
      refine ⟨by simp [hcount], ?_⟩
      exact (endsOperand_append [.operator o] (ne_nil_of_endsOperand hends)).trans hends
  | _, _, _, .binary o hl hr => by
      obtain ⟨hcount, hends⟩ := hr.balanced
      refine ⟨by simp [hl.balanced.1, hcount], ?_⟩
      rw [endsOperand_append _ (List.cons_ne_nil _ _)]
      exact (endsOperand_append [.operator o] (ne_nil_of_endsOperand hends)).trans hends
  | _, _, _, .loosen _ h => h.balanced
theorem DerivesList.balanced : ∀ {ts : List Token} {es : List Expr}, DerivesList ts es →
    ts.count .openParen = ts.count .closeParen
  | _, _, .last h => h.balanced.1
  | _, _, .cons h hs => by simp [h.balanced.1, hs.balanced]
end

/-- The tokens of the constructions on a stack open as many parentheses as are open there, and
behind them an operand is due. -/
theorem Begun.balanced {stack : List Frame} {pre : List Token} (h : Begun stack pre) :
    pre.count .openParen = pre.count .closeParen + openCount stack ∧ endsOperand pre = false := by
  induction h with
  | nil => exact ⟨rfl, rfl⟩
  | signed _ _ ih =>
      refine ⟨?_, endsOperand_snoc _ _⟩
      simp [ih.1, Frame.isOpen]
  | binary _ _ hl ih =>
      refine ⟨?_, by rw [← List.append_assoc]; exact endsOperand_snoc _ _⟩
      simp only [List.count_append, ih.1, hl.balanced.1]
      simp [Frame.isOpen]
      omega
  | group _ ih =>
      refine ⟨?_, endsOperand_snoc _ _⟩
      simp [ih.1, Frame.isOpen]
      omega
  | call _ ih =>
      refine ⟨?_, endsOperand_append _ (List.cons_ne_nil _ _)⟩
      simp [ih.1, Frame.isOpen]
      omega
  | argument _ hl ih =>
      refine ⟨?_, by rw [← List.append_assoc]; exact endsOperand_snoc _ _⟩
      simp only [List.count_append, ih.1, hl.balanced.1]
      simp [Frame.isOpen]
      omega

theorem any_isOpen (stack : List Frame) :
    stack.any Frame.isOpen = decide (0 < openCount stack) := by
  rw [Bool.eq_iff_iff, List.any_eq_true, decide_eq_true_iff, openCount, List.countP_pos_iff]

theorem expected_text_of_operand {stack : List Frame} {ts : List Token}
    (hcount : ts.count .openParen = ts.count .closeParen + openCount stack)
    (hends : endsOperand ts = true) :
    (if stack.any Frame.isOpen = true then Expectation.operator
      else .finishOrOperator).text = dueText ts := by
  rw [any_isOpen, dueText, if_pos hends]
  by_cases h : 0 < openCount stack
  · rw [if_pos (decide_eq_true h), if_pos (by omega)]
    rfl
  · rw [if_neg (by simpa using h), if_neg (by omega)]
    rfl

theorem State.Read.expected_text {q : State} {ts : List Token} (h : q.Read ts) :
    q.expected.text = dueText ts := by
  cases h with
  | due hb =>
      rw [dueText, if_neg (by simp [hb.balanced.2])]
      rfl
  | named x hb =>
      refine expected_text_of_operand ?_ (endsOperand_snoc _ _)
      simp [hb.balanced.1]
  | done hb he =>
      obtain ⟨hcount, hends⟩ := he.balanced
      refine expected_text_of_operand ?_ ?_
      · simp only [List.count_append, hb.balanced.1, hcount]
        omega
      · rw [endsOperand_append _ (ne_nil_of_endsOperand hends), hends]

theorem exists_after_of_viable {ts : List Token} (h : Viable ts) :
    ∃ q, (State.due []).after ts = some q ∧ q.Read ts := by
  obtain ⟨post, e, -, hsentence⟩ := h
  obtain ⟨q', hq', -⟩ := sentence_iff_after.mp hsentence
  cases hq : (State.due []).after ts with
  | none =>
      rw [State.after] at hq hq'
      rw [List.foldlM_append, hq] at hq'
      exact absurd hq' (by simp)
  | some q =>
      have := State.Read.after (.due .nil) hq
      exact ⟨q, rfl, by simpa using this⟩

/-- An operand is due exactly where a number can follow. -/
theorem viable_number_iff {ts : List Token} (h : Viable ts) (l : Decimal.Literal) :
    Viable (ts ++ [.number l]) ↔ endsOperand ts = false := by
  obtain ⟨q, hq, hread⟩ := exists_after_of_viable h
  cases hread with
  | @due stack _ hb =>
      have hafter : (State.due []).after (ts ++ [.number l])
          = some (.done stack (.number l.value)) := by
        rw [State.after_append hq, State.after_singleton]
        rfl
      exact ⟨fun _ => hb.balanced.2, fun _ => viable_of_after hafter⟩
  | named x hb =>
      have hnot := not_viable_of_step_eq_none (t := .number l) hq rfl
      refine ⟨fun h => absurd h hnot, fun h => ?_⟩
      rw [endsOperand_snoc] at h
      exact nomatch h
  | done hb he =>
      have hnot := not_viable_of_step_eq_none (t := .number l) hq rfl
      obtain ⟨-, hends⟩ := he.balanced
      refine ⟨fun h => absurd h hnot, fun h => ?_⟩
      rw [endsOperand_append _ (ne_nil_of_endsOperand hends), hends] at h
      exact nomatch h

/-- **Reading stops at the first token that cannot follow.**  The tokens read are the beginning of
a sentence, but no sentence, and not the beginning of one with the next token; and what is said to
be due is due behind them. -/
theorem ofTokens_stop {ts : List Token} {stop : Stop} (h : Expr.ofTokens ts = .error stop) :
    ∃ read, ts = read ++ stop.unread ∧ Viable read ∧
      (stop.unread = [] → ∀ e, ¬ Sentence .sum read e) ∧
      (∀ t post, stop.unread = t :: post → ¬ Viable (read ++ [t])) ∧
      stop.expected.text = dueText read := by
  obtain ⟨read, q, hts, hread, hexpected, hend, hnext⟩ := State.run_eq_error h
  refine ⟨read, hts, viable_of_after hread, fun hunread => ?_, fun t post hunread => ?_, ?_⟩
  · exact not_sentence_of_finish_eq_none hread (hend hunread)
  · exact not_viable_of_step_eq_none hread (hnext t post hunread)
  · rw [hexpected]
    have := State.Read.after (.due .nil) hread
    exact State.Read.expected_text (by simpa using this)

end Reckoner
