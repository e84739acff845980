/-
# `Reckoner.Proofs.Choice.Fate` — what becomes of the rules for phrases

Where an operand is due, the automaton reads a phrase, or it stops.  `Fate` says what
ordered choice makes of the same text.

* *Whole*: the automaton reads a phrase, the rule leaves its node, and behind it all
  operators that might go on with it have been tried.
* *Broken*: the automaton stops, and the rule has matched a part of what was read: it
  ends before the operator or the parenthesis that led astray.
* *Missing*: the automaton stops, and the rule fails.

In the last two cases the place where the automaton stops is on record, and nothing
that is tried from then on gets as far.
-/
import Reckoner.Proofs.Choice.Record
import Reckoner.Proofs.Grammar.Literals

namespace Reckoner

/-! ## Building -/

/-- The tree `a` of some tokens, or the report of the first literal out of range. -/
def told {α : Type} (ts : List Token) (a : α) : Except Report α :=
  (firstOutOfRange ts a).mapError fun l => (ParseError.literalOutOfRange l).report

section Told

variable {α β : Type} {ts us : List Token} {a : α} {b : β}

theorem told_cons {t : Token} (ht : t.outOfRange? = none) : told (t :: ts) a = told ts a := by
  rw [told, firstOutOfRange_cons ht, told]

theorem told_closed : told (ts ++ [.closeParen]) a = told ts a := by
  rw [told, firstOutOfRange_closed, told]

theorem told_bind {f : α → Except Report β} (h : f a = told us b) :
    (told ts a >>= f) = told (ts ++ us) b := by
  unfold told at h ⊢
  cases hfirst : firstOutOfRange ts a with
  | ok a' =>
      obtain rfl := firstOutOfRange_eq_ok hfirst
      rw [firstOutOfRange_append_of_ok hfirst, ← h]
      rfl
  | error l =>
      rw [firstOutOfRange_append_of_error hfirst]
      rfl

theorem told_map {f : α → Except Report β} (h : f a = .ok b) : (told ts a >>= f) = told ts b := by
  have hbind : (told ts a >>= f) = told (ts ++ []) b := told_bind h
  rwa [List.append_nil] at hbind

end Told

theorem buildNumber_text {l : Decimal.Literal} (hl : l.WellFormed) :
    buildNumber l.text = told [.number l] (.number l.value) := by
  obtain ⟨d, ds, htext⟩ : ∃ d ds, l.text = d :: ds :=
    List.exists_cons_of_ne_nil (Token.WellFormed.text_ne_nil (t := .number l) hl)
  have hd : d.isDigit = true :=
    Decimal.Literal.WellFormed.head_text hl (r := []) (by rw [List.append_nil, htext])
  have hread : Decimal.Literal.read d ds = (l, []) :=
    Decimal.Literal.read_text hl (by rw [List.append_nil, htext]) (by simp)
  rw [htext, buildNumber, hread, told, firstOutOfRange]
  simp only [hd, List.isEmpty_nil, Bool.and_self, if_true, List.findSome?_singleton,
    Token.outOfRange?]
  cases l.value.isFinite <;> rfl

theorem buildArguments_cons {n : Node Rule} {nodes : List (Node Rule)} {ts us : List Token}
    {e : Expr} {es : List Expr} (hn : n.build .sum = told ts e)
    (hnodes : buildArguments nodes = told us es) :
    buildArguments (n :: nodes) = told (ts ++ us) (e :: es) := by
  have hrest : (buildArguments nodes >>= fun es => .ok (e :: es)) = told us (e :: es) := by
    rw [hnodes]
    exact told_map rfl
  show (n.build .sum >>= fun e => buildArguments nodes >>= fun es => .ok (e :: es)) = _
  rw [hn]
  exact told_bind hrest

theorem build_call {w w' : List Char} {f : String} {inner : List (Node Rule)} {ts : List Token}
    {es : List Expr} (h : buildArguments inner = told ts es) :
    (Node.node .call w [.node .name f.toList [], .node .arguments w' inner]).build .atom
      = told ts (.call f es) := by
  show (buildArguments inner >>= fun es => pure (Expr.call (String.ofList f.toList) es)) = _
  rw [h, String.ofList_toList]
  exact told_map rfl

theorem buildChain_cons {k j : Level} {n : Node Rule} {nodes : List (Node Rule)}
    {ts us : List Token} {l e : Expr} (hn : n.build j = told ts l)
    (hnodes : buildRest k j l nodes = told us e) :
    buildChain k j (n :: nodes) = told (ts ++ us) e := by
  show (n.build j >>= fun l => buildRest k j l nodes) = _
  rw [hn]
  exact told_bind hnodes

theorem buildRest_cons {k j : Level} {o : Operator} {n : Node Rule} {nodes : List (Node Rule)}
    {ts us : List Token} {l r e : Expr} (ho : o.level = k) (hn : n.build j = told ts r)
    (hnodes : buildRest k j (.binary o l r) nodes = told us e) :
    buildRest k j l (operatorNode o :: n :: nodes) = told (ts ++ us) e := by
  have hoperator : buildOperator k (operatorNode o) = .ok o := if_pos ho
  show (buildOperator k (operatorNode o) >>= fun o => n.build j >>= fun r =>
    buildRest k j (.binary o l r) nodes) = _
  rw [hoperator, hn]
  exact told_bind hnodes

/-! ## The fate of a phrase -/

/-- `Blocked k here rest`: what `rest` starts with might have gone on with a phrase at level `k`,
but the attempt has led to `here` and no further. -/
inductive Blocked (k : Level) (here rest : List Char) : Prop where
  | openParen {r : List Char} :
      Skipped rest → next? rest = some (.openParen, r) → here.length ≤ r.length →
      Blocked k here rest
  | operator {o : Operator} {r : List Char} :
      Skipped rest → next? rest = some (.operator o, r) → k.rank ≤ o.level.rank →
      here.length ≤ r.length → Blocked k here rest

/-- What ordered choice makes of a text where a phrase at level `k` is due on `stack`. -/
inductive Fate (k : Level) (stack : List Frame) (cs : List Char) : Outcome Rule → Prop where
  | whole {n : Node Rule} {ts : List Token} {q : State} {e : Expr} {rest : List Char} :
      Reaches (.due stack) cs ts q rest → q.Holds k stack e → Ended k q rest →
      n.build k = told ts e → Fate k stack cs (.found [n] rest (k.record rest))
  | broken {nodes : List (Node Rule)} {rest here : List Char} {x : Expectation} :
      Stops (.due stack) cs here x → Blocked k here rest →
      Fate k stack cs (.found nodes rest (x.record here))
  | missing {here : List Char} {x : Expectation} :
      Stops (.due stack) cs here x → Fate k stack cs (.missing (x.record here))

section Blocked

variable {j k : Level} {here rest : List Char}

theorem Blocked.skipped (h : Blocked k here rest) : Skipped rest := by
  cases h with
  | openParen h _ _ | operator h _ _ _ => exact h

theorem Blocked.length_lt (h : Blocked k here rest) : here.length < rest.length := by
  cases h with
  | openParen _ hnext hle | operator _ hnext _ hle =>
      exact Nat.lt_of_le_of_lt hle (length_lt_of_next? hnext)

theorem Blocked.loosen (h : Blocked k here rest) (hjk : j.rank ≤ k.rank) : Blocked j here rest := by
  cases h with
  | openParen hskip hnext hle => exact .openParen hskip hnext hle
  | operator hskip hnext hk hle => exact .operator hskip hnext (Nat.le_trans hjk hk) hle

theorem Blocked.not_close (h : Blocked k here rest) (r : List Char) :
    next? rest ≠ some (.closeParen, r) := by
  cases h with
  | openParen _ hnext _ | operator _ hnext _ _ => simp [hnext]

theorem Blocked.not_comma (h : Blocked k here rest) (r : List Char) :
    next? rest ≠ some (.comma, r) := by
  cases h with
  | openParen _ hnext _ | operator _ hnext _ _ => simp [hnext]

end Blocked

/-- The rule `r` is for whole phrases at level `k`. -/
inductive Rule.For : Rule → Level → Prop where
  | sum : Rule.For .sum .sum
  | product : Rule.For .product .product
  | signed : Rule.For .signed .signed

/-- An operand is due on `stack` at a place where nothing was tried yet; the arguments of a call
are not closed before they begin. -/
structure Ready (stack : List Frame) (cs : List Char) (t : Tried Rule) : Prop where
  skipped : Skipped cs
  fresh : t.Fresh cs
  not_close : ∀ r, next? cs = some (.closeParen, r) → (State.due stack).step .closeParen = none

/-- Every rule for phrases has a fate on texts shorter than `n`. -/
def PhrasesBelow (text : List Char) (n : Nat) : Prop :=
  ∀ {r : Rule} {k : Level}, r.For k → ∀ {stack : List Frame} {cs : List Char} {t : Tried Rule},
    cs.length < n → Admits k stack → Ready stack cs t →
      ∃ o, Matches Rule.body text (.rule r) cs t o ∧ Fate k stack cs o

end Reckoner
