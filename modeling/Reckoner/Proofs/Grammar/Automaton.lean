/-
# `Reckoner.Proofs.Grammar.Automaton` — the automaton reads exactly the phrases

The two directions, and what carries each.

* *Completeness*, `Derives.after`: a phrase that is due on a stack is read to its
  end, and leaves its tree on that stack — up to `settle`.  The automaton puts
  off the completion of frames until it sees what follows, so the state after
  `2 * 3` still has the frame of the product.  `State.Holds` is the equality that
  survives: whatever settles the stack next finds the tree of the phrase.
* *Soundness*, `State.Read.step`: the tokens read so far are the beginnings of the
  constructions on the stack (`Begun`) and the phrase of the operand.

Together they give `ofTokens_eq_ok_iff`.  The automaton is a function, so a
sequence of tokens has at most one tree (`Derives.unique`).
-/
import Reckoner.Expr.Parse
import Reckoner.Grammar

namespace Reckoner

/-! ## Levels -/

theorem Level.rank_injective {j k : Level} (h : j.rank = k.rank) : j = k := by
  cases j <;> cases k <;> first | rfl | exact absurd h (by decide)

theorem Derives.of_rank_le {j k : Level} {ts : List Token} {e : Expr} (hjk : j.rank ≤ k.rank)
    (h : Derives k ts e) : Derives j ts e := by
  rcases Nat.lt_or_eq_of_le hjk with hlt | heq
  · exact .loosen hlt h
  · rw [Level.rank_injective heq]
    exact h

/-! ## Settling a stack -/

/-- Settling at level `k` completes the frame. -/
def Frame.bindsAt (k : Level) : Frame → Prop
  | .signed _ => k.rank ≤ Level.signed.rank
  | .binary o _ => k.rank ≤ o.level.rank
  | .group | .call .. => False

/-- Settling at level `k` leaves the stack alone. -/
def Rests (k : Level) (stack : List Frame) : Prop := ∀ f ∈ stack.head?, ¬ f.bindsAt k

theorem settle_of_rests {k : Level} {stack : List Frame} (h : Rests k stack) (e : Expr) :
    settle k stack e = (stack, e) := by
  cases stack with
  | nil => rfl
  | cons f outer =>
      have hf : ¬ f.bindsAt k := h f rfl
      cases f with
      | signed s => exact if_neg hf
      | binary o l => exact if_neg hf
      | group => rfl
      | call g es => rfl

theorem rests_settle (k : Level) (stack : List Frame) (e : Expr) :
    Rests k (settle k stack e).1 := by
  fun_induction settle k stack e with
  | case1 s outer e h ih => exact ih
  | case2 s outer e h => exact fun f hf => (Option.some.inj hf) ▸ h
  | case3 o l outer e h ih => exact ih
  | case4 o l outer e h => exact fun f hf => (Option.some.inj hf) ▸ h
  | case5 stack e hs hb =>
      cases stack with
      | nil => exact fun f hf => nomatch hf
      | cons g outer =>
          cases g with
          | signed s => exact absurd rfl (hs s outer)
          | binary o l => exact absurd rfl (hb o l outer)
          | group => exact fun f hf => (Option.some.inj hf) ▸ id
          | call g es => exact fun f hf => (Option.some.inj hf) ▸ id

theorem settle_signed {k : Level} (hk : k.rank ≤ Level.signed.rank) (s : Sign)
    (outer : List Frame) (e : Expr) :
    settle k (.signed s :: outer) e = settle k outer (.signed s e) := by
  rw [settle, if_pos hk]

theorem settle_binary {k : Level} {o : Operator} (hk : k.rank ≤ o.level.rank) (l : Expr)
    (outer : List Frame) (e : Expr) :
    settle k (.binary o l :: outer) e = settle k outer (.binary o l e) := by
  rw [settle, if_pos hk]

theorem rests_of_isOpen {k : Level} {f : Frame} (hf : f.isOpen = true) (outer : List Frame) :
    Rests k (f :: outer) := by
  intro g hg
  obtain rfl := Option.some.inj hg
  cases f with
  | signed s => exact absurd hf (by simp [Frame.isOpen])
  | binary o l => exact absurd hf (by simp [Frame.isOpen])
  | group => exact id
  | call g es => exact id

/-! ## Several tokens at once -/

def State.after (q : State) (ts : List Token) : Option State := ts.foldlM State.step q

theorem State.after_cons {q r : State} {t : Token} (h : q.step t = some r) (ts : List Token) :
    q.after (t :: ts) = r.after ts := by
  simp [State.after, List.foldlM_cons, h]

theorem State.after_append {q q' : State} {ts : List Token} (h : q.after ts = some q')
    (us : List Token) : q.after (ts ++ us) = q'.after us := by
  unfold State.after at h ⊢
  rw [List.foldlM_append, h]
  rfl

theorem State.after_singleton (q : State) (t : Token) : q.after [t] = q.step t := by
  simp [State.after]

theorem State.run_append {q q' : State} {ts : List Token} (h : q.after ts = some q')
    (us : List Token) : q.run (ts ++ us) = q'.run us := by
  induction ts generalizing q with
  | nil =>
      obtain rfl : q = q' := Option.some.inj h
      rfl
  | cons t ts ih =>
      cases hs : q.step t with
      | none => exact absurd h (by simp [State.after, hs])
      | some r =>
          rw [State.after_cons hs] at h
          rw [List.cons_append, State.run, hs]
          exact ih h

theorem State.run_eq_ok_iff {q : State} {ts : List Token} {e : Expr} :
    q.run ts = .ok e ↔ ∃ q', q.after ts = some q' ∧ q'.finish = some e := by
  induction ts generalizing q with
  | nil =>
      rw [State.run]
      cases hf : q.finish with
      | none => simp [State.after, hf]
      | some e' => simp [State.after, hf]
  | cons t ts ih =>
      rw [State.run]
      cases hs : q.step t with
      | none => simp [State.after, hs]
      | some q' => rw [State.after_cons hs]; exact ih

/-! ## Completeness -/

/-- The stack and the operand of a state in which an operand has been read. -/
def State.operand? : State → Option (List Frame × Expr)
  | .due _ => none
  | .named stack x => some (stack, .name x)
  | .done stack e => some (stack, e)

/-- Whatever settles the stack next, at level `k` or looser, finds `e` on `stack`. -/
def State.Holds (q : State) (k : Level) (stack : List Frame) (e : Expr) : Prop :=
  ∃ top x, q.operand? = some (top, x) ∧
    ∀ o : Operator, o.leftLevel.rank ≤ k.rank →
      settle o.leftLevel top x = settle o.leftLevel stack e

/-- A phrase at level `k` leaves the frames below it alone: none of the operators it may have at
its top settles them. -/
def Admits (k : Level) (stack : List Frame) : Prop :=
  ∀ o : Operator, k.rank ≤ o.level.rank → Rests o.leftLevel stack

theorem State.step_of_operand {q : State} {top : List Frame} {x : Expr}
    (h : q.operand? = some (top, x)) {t : Token} (ht : t ≠ .openParen) :
    q.step t = afterOperand top x t := by
  cases q with
  | due stack => exact absurd h (by simp [State.operand?])
  | named stack y =>
      obtain ⟨rfl, rfl⟩ := Prod.mk.inj (Option.some.inj h)
      cases t <;> first | rfl | exact absurd rfl ht
  | done stack y =>
      obtain ⟨rfl, rfl⟩ := Prod.mk.inj (Option.some.inj h)
      rfl

theorem State.finish_of_operand {q : State} {top : List Frame} {x : Expr}
    (h : q.operand? = some (top, x)) : q.finish = finishWith top x := by
  cases q with
  | due stack => exact absurd h (by simp [State.operand?])
  | named stack y | done stack y =>
      obtain ⟨rfl, rfl⟩ := Prod.mk.inj (Option.some.inj h)
      rfl

theorem Level.sum_rank_le (k : Level) : Level.sum.rank ≤ k.rank := by
  cases k <;> decide

theorem State.Holds.settle_sum {q : State} {k : Level} {stack : List Frame} {e : Expr}
    (h : q.Holds k stack e) :
    ∃ top x, q.operand? = some (top, x) ∧ settle .sum top x = settle .sum stack e := by
  obtain ⟨top, x, hq, hs⟩ := h
  exact ⟨top, x, hq, hs .add (Level.sum_rank_le k)⟩

theorem State.holds_done (k : Level) (stack : List Frame) (e : Expr) :
    (State.done stack e).Holds k stack e :=
  ⟨stack, e, rfl, fun _ _ => rfl⟩

theorem State.holds_named (k : Level) (stack : List Frame) (x : String) :
    (State.named stack x).Holds k stack (.name x) :=
  ⟨stack, .name x, rfl, fun _ _ => rfl⟩

theorem State.Holds.loosen {q : State} {j k : Level} {stack : List Frame} {e : Expr}
    (hjk : j.rank < k.rank) (h : q.Holds k stack e) : q.Holds j stack e := by
  obtain ⟨top, x, hq, hs⟩ := h
  exact ⟨top, x, hq, fun o ho => hs o (by omega)⟩

theorem State.Holds.signed {q : State} {s : Sign} {stack : List Frame} {e : Expr}
    (h : q.Holds .signed (.signed s :: stack) e) : q.Holds .signed stack (.signed s e) := by
  obtain ⟨top, x, hq, hs⟩ := h
  exact ⟨top, x, hq, fun o ho => (hs o ho).trans (settle_signed ho s stack e)⟩

theorem State.Holds.binary {q : State} {o : Operator} {l r : Expr} {stack : List Frame}
    (h : q.Holds o.rightLevel (.binary o l :: stack) r) :
    q.Holds o.level stack (.binary o l r) := by
  obtain ⟨top, x, hq, hs⟩ := h
  refine ⟨top, x, hq, fun o' ho' => ?_⟩
  have hright : o'.leftLevel.rank ≤ o.rightLevel.rank := by
    revert ho'
    cases o <;> cases o' <;> decide
  exact (hs o' hright).trans (settle_binary ho' l stack r)

theorem State.Holds.step_operator {q : State} {o : Operator} {stack : List Frame} {l : Expr}
    (h : q.Holds o.leftLevel stack l) (hr : Rests o.leftLevel stack) :
    q.step (.operator o) = some (.due (.binary o l :: stack)) := by
  obtain ⟨top, x, hq, hs⟩ := h
  have hs : settle o.leftLevel top x = (stack, l) :=
    (hs o (Nat.le_refl _)).trans (settle_of_rests hr l)
  rw [State.step_of_operand hq (by simp), afterOperand, hs]

theorem State.Holds.step_comma {q : State} {k : Level} {f : String} {es : List Expr}
    {outer : List Frame} {e : Expr} (h : q.Holds k (.call f es :: outer) e) :
    q.step .comma = some (.due (.call f (e :: es) :: outer)) := by
  obtain ⟨top, x, hq, hs⟩ := h.settle_sum
  rw [settle_of_rests (rests_of_isOpen rfl outer)] at hs
  rw [State.step_of_operand hq (by simp), afterOperand, hs]

theorem State.Holds.step_close_group {q : State} {k : Level} {outer : List Frame} {e : Expr}
    (h : q.Holds k (.group :: outer) e) : q.step .closeParen = some (.done outer e) := by
  obtain ⟨top, x, hq, hs⟩ := h.settle_sum
  rw [settle_of_rests (rests_of_isOpen rfl outer)] at hs
  rw [State.step_of_operand hq (by simp), afterOperand, hs]

theorem State.Holds.step_close_call {q : State} {k : Level} {f : String} {es : List Expr}
    {outer : List Frame} {e : Expr} (h : q.Holds k (.call f es :: outer) e) :
    q.step .closeParen = some (.done outer (.call f (e :: es).reverse)) := by
  obtain ⟨top, x, hq, hs⟩ := h.settle_sum
  rw [settle_of_rests (rests_of_isOpen rfl outer)] at hs
  rw [State.step_of_operand hq (by simp), afterOperand, hs]

theorem State.Holds.finish {q : State} {k : Level} {e : Expr} (h : q.Holds k [] e) :
    q.finish = some e := by
  obtain ⟨top, x, hq, hs⟩ := h.settle_sum
  rw [State.finish_of_operand hq, finishWith, hs]
  rfl

/-! ### Which stacks admit which phrases -/

theorem admits_nil (k : Level) : Admits k [] := fun _ _ _ hf => nomatch hf

theorem admits_of_isOpen {f : Frame} (hf : f.isOpen = true) (k : Level) (outer : List Frame) :
    Admits k (f :: outer) := fun _ _ => rests_of_isOpen hf outer

theorem Admits.tighten {j k : Level} {stack : List Frame} (hjk : j.rank < k.rank)
    (h : Admits j stack) : Admits k stack := fun o ho => h o (by omega)

theorem admits_signed (s : Sign) (stack : List Frame) : Admits .signed (.signed s :: stack) := by
  intro o ho f hf
  obtain rfl := Option.some.inj hf
  show ¬ o.leftLevel.rank ≤ Level.signed.rank
  revert ho
  cases o <;> decide

theorem admits_right (o : Operator) (l : Expr) (stack : List Frame) :
    Admits o.rightLevel (.binary o l :: stack) := by
  intro o' ho' f hf
  obtain rfl := Option.some.inj hf
  show ¬ o'.leftLevel.rank ≤ o.level.rank
  revert ho'
  cases o <;> cases o' <;> decide

theorem Admits.left {o : Operator} {stack : List Frame} (h : Admits o.level stack) :
    Admits o.leftLevel stack := by
  intro o' ho'
  refine h o' ?_
  revert ho'
  cases o <;> cases o' <;> decide

/-! ### Reading a phrase -/

mutual
/-- A phrase that is due on a stack is read to its end and leaves its tree there. -/
theorem Derives.after : ∀ {k : Level} {ts : List Token} {e : Expr}, Derives k ts e →
    ∀ {stack : List Frame}, Admits k stack →
      ∃ q, (State.due stack).after ts = some q ∧ q.Holds k stack e
  | _, _, _, .number l, stack, _ => ⟨_, rfl, State.holds_done _ stack _⟩
  | _, _, _, .name x, stack, _ => ⟨_, rfl, State.holds_named _ stack x⟩
  | _, _, _, .group h, stack, _ => by
      obtain ⟨q, hq, hheld⟩ := h.after (admits_of_isOpen (f := .group) rfl .sum stack)
      refine ⟨_, ?_, State.holds_done _ stack _⟩
      rw [State.after_cons (r := .due (.group :: stack)) rfl, State.after_append hq,
        State.after_singleton, hheld.step_close_group]
  | _, _, _, .callNothing f, stack, _ => ⟨_, rfl, State.holds_done _ stack _⟩
  | _, _, _, .call f h, stack, _ => by
      obtain ⟨q, e, es, rfl, hq, hheld⟩ := h.after f [] stack
      refine ⟨_, ?_, State.holds_done _ stack _⟩
      rw [State.after_cons (r := .named stack f) rfl,
        State.after_cons (r := .due (.call f [] :: stack)) rfl, State.after_append hq,
        State.after_singleton, hheld.step_close_call]
      simp
  | _, _, _, .signed (s := s) hs h, stack, _ => by
      obtain ⟨q, hq, hheld⟩ := h.after (admits_signed s stack)
      refine ⟨q, ?_, hheld.signed⟩
      rw [State.after_cons (r := .due (.signed s :: stack)) (by simp [State.step, hs]), hq]
  | _, _, _, .binary o (l := l) hl hr, stack, hstack => by
      obtain ⟨q, hq, hheld⟩ := hl.after hstack.left
      obtain ⟨q', hq', hheld'⟩ := hr.after (admits_right o l stack)
      have hstep := hheld.step_operator (hstack o (Nat.le_refl _))
      exact ⟨q', by rw [State.after_append hq, State.after_cons hstep, hq'], hheld'.binary⟩
  | _, _, _, .loosen hjk h, stack, hstack => by
      obtain ⟨q, hq, hheld⟩ := h.after (hstack.tighten hjk)
      exact ⟨q, hq, hheld.loosen hjk⟩
theorem DerivesList.after : ∀ {ts : List Token} {es : List Expr}, DerivesList ts es →
    ∀ (f : String) (done : List Expr) (outer : List Frame),
      ∃ q last init, es = init ++ [last] ∧
        (State.due (.call f done :: outer)).after ts = some q ∧
        q.Holds .sum (.call f (init.reverse ++ done) :: outer) last
  | _, _, .last (e := e) h, f, done, outer => by
      obtain ⟨q, hq, hheld⟩ := h.after (admits_of_isOpen (f := .call f done) rfl .sum outer)
      exact ⟨q, e, [], rfl, hq, hheld⟩
  | _, _, .cons (e := e) h hs, f, done, outer => by
      obtain ⟨q, hq, hheld⟩ := h.after (admits_of_isOpen (f := .call f done) rfl .sum outer)
      obtain ⟨q', last, init, rfl, hq', hheld'⟩ := hs.after f (e :: done) outer
      refine ⟨q', last, e :: init, rfl, ?_, ?_⟩
      · rw [State.after_append hq, State.after_cons hheld.step_comma, hq']
      · simpa using hheld'
end

/-! ## Soundness -/

/-- `Begun stack ts`: the tokens `ts` have begun the constructions on `stack`. -/
inductive Begun : List Frame → List Token → Prop where
  | nil : Begun [] []
  | signed {o : Operator} {s : Sign} {outer : List Frame} {pre : List Token} :
      o.sign? = some s → Begun outer pre → Begun (.signed s :: outer) (pre ++ [.operator o])
  | binary {o : Operator} {l : Expr} {outer : List Frame} {pre ts : List Token} :
      Begun outer pre → Rests o.leftLevel outer → Derives o.leftLevel ts l →
      Begun (.binary o l :: outer) (pre ++ (ts ++ [.operator o]))
  | group {outer : List Frame} {pre : List Token} :
      Begun outer pre → Begun (.group :: outer) (pre ++ [.openParen])
  | call {f : String} {outer : List Frame} {pre : List Token} :
      Begun outer pre → Begun (.call f [] :: outer) (pre ++ [.name f, .openParen])
  | argument {f : String} {es : List Expr} {e : Expr} {outer : List Frame}
      {pre ts : List Token} :
      Begun (.call f es :: outer) pre → Derives .sum ts e →
      Begun (.call f (e :: es) :: outer) (pre ++ (ts ++ [.comma]))

/-- A phrase of level `k` can complete the frame. -/
def Frame.takes (k : Level) : Frame → Prop
  | .signed _ => Level.signed.rank ≤ k.rank
  | .binary o _ => o.rightLevel.rank ≤ k.rank
  | .group | .call .. => True

/-- A phrase of level `k` can complete the top of the stack. -/
def Fits (k : Level) (stack : List Frame) : Prop := ∀ f ∈ stack.head?, f.takes k

theorem fits_signed (stack : List Frame) : Fits .signed stack := by
  intro f _
  cases f with
  | signed s => exact Nat.le_refl _
  | binary o l =>
      show o.rightLevel.rank ≤ Level.signed.rank
      cases o <;> decide
  | group | call f es => trivial

theorem fits_atom (stack : List Frame) : Fits .atom stack := by
  intro f _
  cases f with
  | signed s => exact show Level.signed.rank ≤ Level.atom.rank by decide
  | binary o l =>
      show o.rightLevel.rank ≤ Level.atom.rank
      cases o <;> decide
  | group | call f es => trivial

/-- What rests under the left operand of an operator is completed by the whole. -/
theorem fits_level {o : Operator} {stack : List Frame} (h : Rests o.leftLevel stack) :
    Fits o.level stack := by
  intro f hf
  have hrest : ¬ f.bindsAt o.leftLevel := h f hf
  cases f with
  | signed s =>
      have hrest : ¬ o.leftLevel.rank ≤ Level.signed.rank := hrest
      show Level.signed.rank ≤ o.level.rank
      revert hrest
      cases o <;> decide
  | binary o' l =>
      have hrest : ¬ o.leftLevel.rank ≤ o'.level.rank := hrest
      show o'.rightLevel.rank ≤ o.level.rank
      revert hrest
      cases o <;> cases o' <;> decide
  | group | call f es => trivial

/-- Settling keeps what has been read: the frames it completes become part of the operand. -/
theorem Begun.settled (k : Level) : ∀ (stack : List Frame) (e : Expr) {m : Level}
    {pre ts : List Token}, Begun stack pre → Fits m stack → k.rank ≤ m.rank → Derives m ts e →
      ∃ pre' ts', Begun (settle k stack e).1 pre' ∧ Derives k ts' (settle k stack e).2 ∧
        pre ++ ts = pre' ++ ts' := by
  intro stack e
  fun_induction settle k stack e with
  | case1 s outer e hk ih =>
      intro m pre ts hb hm _ he
      cases hb with
      | @signed o _ _ pre hs hb =>
          obtain ⟨pre', ts', hb', he', happ⟩ :=
            ih hb (fits_signed outer) hk (.signed hs (he.of_rank_le (hm _ rfl)))
          exact ⟨pre', ts', hb', he', by rw [← happ]; simp⟩
  | case2 s outer e hk => intro m pre ts hb _ hkm he; exact ⟨pre, ts, hb, he.of_rank_le hkm, rfl⟩
  | case3 o l outer e hk ih =>
      intro m pre ts hb hm _ he
      cases hb with
      | @binary _ _ _ pre us hb hr hl =>
          obtain ⟨pre', ts', hb', he', happ⟩ :=
            ih hb (fits_level hr) hk (.binary o hl (he.of_rank_le (hm _ rfl)))
          exact ⟨pre', ts', hb', he', by rw [← happ]; simp⟩
  | case4 o l outer e hk => intro m pre ts hb _ hkm he; exact ⟨pre, ts, hb, he.of_rank_le hkm, rfl⟩
  | case5 stack e _ _ => intro m pre ts hb _ hkm he; exact ⟨pre, ts, hb, he.of_rank_le hkm, rfl⟩

/-- The arguments begun so far, with the one that is still to come, are those of the call. -/
theorem Begun.call_arguments : ∀ {stack : List Frame} {pre : List Token}, Begun stack pre →
    ∀ {f : String} {es : List Expr} {outer : List Frame}, stack = .call f es :: outer →
      ∃ pre₀ args, Begun outer pre₀ ∧ pre = pre₀ ++ .name f :: .openParen :: args ∧
        ∀ (us : List Token) (e : Expr) (es' : List Expr), DerivesList us (e :: es') →
          DerivesList (args ++ us) (es.reverse ++ e :: es') := by
  intro stack pre h
  induction h with
  | nil | signed | binary | group => intro f es outer heq; exact nomatch heq
  | @call f outer pre hb =>
      intro f' es outer' heq
      obtain ⟨⟨rfl, rfl⟩, rfl⟩ : (f = f' ∧ [] = es) ∧ outer = outer' := by simpa using heq
      exact ⟨pre, [], hb, rfl, fun _ _ _ hlast => hlast⟩
  | @argument f es e outer pre ts hb he ih =>
      intro f' es' outer' heq
      obtain ⟨⟨rfl, rfl⟩, rfl⟩ : (f = f' ∧ e :: es = es') ∧ outer = outer' := by simpa using heq
      obtain ⟨pre₀, args, hb₀, rfl, hargs⟩ := ih rfl
      refine ⟨pre₀, args ++ (ts ++ [.comma]), hb₀, by simp, ?_⟩
      intro us e' es' hlast
      have := hargs _ _ _ (.cons he hlast)
      simpa using this

/-- The tokens `ts` are what a state has read. -/
inductive State.Read : State → List Token → Prop where
  | due {stack : List Frame} {pre : List Token} : Begun stack pre → Read (.due stack) pre
  | named {stack : List Frame} {pre : List Token} (x : String) :
      Begun stack pre → Read (.named stack x) (pre ++ [.name x])
  | done {stack : List Frame} {pre ts : List Token} {e : Expr} :
      Begun stack pre → Derives .atom ts e → Read (.done stack e) (pre ++ ts)

theorem Begun.afterOperand {stack : List Frame} {pre ts : List Token} {e : Expr} {t : Token}
    {q : State} (hb : Begun stack pre) (he : Derives .atom ts e)
    (h : afterOperand stack e t = some q) : q.Read (pre ++ ts ++ [t]) := by
  have hsettled := fun (k : Level) =>
    hb.settled k stack e (fits_atom stack) (by cases k <;> decide) he
  cases t with
  | operator o =>
      obtain ⟨pre', ts', hb', he', happ⟩ := hsettled o.leftLevel
      simp only [Reckoner.afterOperand, Option.some.injEq] at h
      subst h
      have := hb'.binary (rests_settle o.leftLevel stack e) he'
      rw [happ, List.append_assoc]
      exact .due this
  | comma =>
      obtain ⟨pre', ts', hb', he', happ⟩ := hsettled .sum
      rw [Reckoner.afterOperand] at h
      split at h
      · rename_i f es outer last hs
        obtain rfl := Option.some.inj h
        rw [hs] at hb' he'
        rw [happ, List.append_assoc]
        exact .due (hb'.argument he')
      · exact absurd h (by simp)
  | closeParen =>
      obtain ⟨pre', ts', hb', he', happ⟩ := hsettled .sum
      rw [Reckoner.afterOperand] at h
      split at h
      · rename_i outer inner hs
        obtain rfl := Option.some.inj h
        rw [hs] at hb' he'
        cases hb' with
        | @group _ pre hb' =>
            have := State.Read.done hb' (.group he')
            rw [happ]
            simpa using this
      · rename_i f es outer last hs
        obtain rfl := Option.some.inj h
        rw [hs] at hb' he'
        obtain ⟨pre₀, args, hb₀, rfl, hargs⟩ := hb'.call_arguments rfl
        have := State.Read.done hb₀ (.call f (hargs _ _ _ (.last he')))
        rw [happ, List.reverse_cons]
        simpa using this
      · exact absurd h (by simp)
  | number l | name x | openParen | stray c => exact absurd h (by simp [Reckoner.afterOperand])

theorem State.Read.step {q q' : State} {ts : List Token} {t : Token} (hq : q.Read ts)
    (h : q.step t = some q') : q'.Read (ts ++ [t]) := by
  cases hq with
  | @due stack pre hb =>
      cases t with
      | number l =>
          obtain rfl := Option.some.inj h
          exact .done hb (.number l)
      | name x =>
          obtain rfl := Option.some.inj h
          exact .named x hb
      | openParen =>
          obtain rfl := Option.some.inj h
          exact .due hb.group
      | operator o =>
          obtain ⟨s, hs, rfl⟩ := Option.map_eq_some_iff.mp h
          exact .due (.signed hs hb)
      | closeParen =>
          -- only a call without arguments may be closed where an operand is due
          cases hb with
          | @call f outer pre hb =>
              obtain rfl := Option.some.inj h
              have := State.Read.done hb (.callNothing f)
              simpa using this
          | nil | signed | binary | group | argument => exact nomatch h
      | comma | stray c => exact absurd h (by simp [State.step])
  | @named stack pre x hb =>
      cases t with
      | openParen =>
          obtain rfl := Option.some.inj h
          rw [List.append_assoc]
          exact .due hb.call
      | number l | name y | operator o | closeParen | comma | stray c =>
          exact hb.afterOperand (.name x) h
  | @done stack pre ts e hb he => exact hb.afterOperand he h

theorem State.Read.after {q q' : State} {ts us : List Token} (hq : q.Read ts)
    (h : q.after us = some q') : q'.Read (ts ++ us) := by
  induction us generalizing q ts with
  | nil =>
      obtain rfl : q = q' := Option.some.inj h
      simpa using hq
  | cons u us ih =>
      cases hs : q.step u with
      | none => exact absurd h (by simp [State.after, hs])
      | some q'' =>
          rw [State.after_cons hs] at h
          have := ih (hq.step hs) h
          simpa using this

theorem Begun.finish {stack : List Frame} {pre ts : List Token} {e whole : Expr}
    (hb : Begun stack pre) (he : Derives .atom ts e) (h : finishWith stack e = some whole) :
    Derives .sum (pre ++ ts) whole := by
  obtain ⟨pre', ts', hb', he', happ⟩ :=
    hb.settled .sum stack e (fits_atom stack) (by decide) he
  rw [finishWith] at h
  split at h
  · rename_i w hs
    obtain rfl := Option.some.inj h
    rw [hs] at hb' he'
    cases hb' with
    | nil => rw [happ]; exact he'
  · exact absurd h (by simp)

theorem State.Read.finish {q : State} {ts : List Token} {e : Expr} (hq : q.Read ts)
    (h : q.finish = some e) : Derives .sum ts e := by
  cases hq with
  | due hb => exact absurd h (by simp [State.finish])
  | named x hb => exact hb.finish (.name x) h
  | done hb he => exact hb.finish he h

/-! ## The automaton and the grammar -/

/-- The automaton gives a sequence of tokens the tree that the grammar gives it. -/
theorem ofTokens_eq_ok_iff {ts : List Token} {e : Expr} :
    Expr.ofTokens ts = .ok e ↔ Derives .sum ts e := by
  rw [Expr.ofTokens, State.run_eq_ok_iff]
  constructor
  · rintro ⟨q, hq, hfinish⟩
    exact (State.Read.after (.due .nil) hq).finish hfinish
  · intro h
    obtain ⟨q, hq, hheld⟩ := h.after (admits_nil .sum)
    exact ⟨q, hq, hheld.finish⟩

theorem Derives.unique {k : Level} {ts : List Token} {e e' : Expr} (h : Derives k ts e)
    (h' : Derives k ts e') : e = e' := by
  have hsum := ofTokens_eq_ok_iff.mpr (h.of_rank_le (Level.sum_rank_le k))
  have hsum' := ofTokens_eq_ok_iff.mpr (h'.of_rank_le (Level.sum_rank_le k))
  exact Except.ok.inj (hsum.symm.trans hsum')

end Reckoner
