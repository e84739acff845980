/-
# `Reckoner.Proofs.Grammar.Depth` — the nesting of a tree is that of the reader's stack

The recursion of a tree is a measure of the finished tree.  The reader that builds
it never sees the tree; it sees a stack.  `Derives.peak` says that the two agree:
the recursion is the largest number of signs, powers and calls that are begun and
not yet completed at one place of the text.

The equality is about phrases on any stack that admits them, so that it can be
carried through the frames of an operator and of a call.
-/
import Reckoner.Proofs.Grammar.Automaton

namespace Reckoner

/-! ## The load of a stack -/

/-- The frame stands for a step that nests: into a sign's operand, an exponent or a call. -/
def Frame.load : Frame → Nat
  | .signed _ => 1
  | .binary .power _ => 1
  | .binary .. => 0
  | .group => 0
  | .call .. => 1

theorem Frame.load_le_one (f : Frame) : f.load ≤ 1 := by
  cases f with
  | binary o l => cases o <;> simp [load]
  | signed s | group | call g es => simp [load]

def stackLoad : List Frame → Nat
  | [] => 0
  | f :: stack => f.load + stackLoad stack

@[simp] theorem stackLoad_cons (f : Frame) (stack : List Frame) :
    stackLoad (f :: stack) = f.load + stackLoad stack := rfl

/-- The constructions that nest, begun and not yet completed. -/
def State.load : State → Nat
  | .due stack | .named stack _ | .done stack _ => stackLoad stack

/-- The largest load on the way through some tokens, as far as they can follow. -/
def State.peak (q : State) : List Token → Nat
  | [] => q.load
  | t :: ts =>
    match q.step t with
    | some q' => max q.load (q'.peak ts)
    | none => q.load

theorem State.peak_cons {q r : State} {t : Token} (h : q.step t = some r) (ts : List Token) :
    q.peak (t :: ts) = max q.load (r.peak ts) := by
  rw [State.peak, h]

theorem State.load_le_peak (q : State) (ts : List Token) : q.load ≤ q.peak ts := by
  cases ts with
  | nil => exact Nat.le_refl _
  | cons t ts =>
      rw [State.peak]
      split
      · exact Nat.le_max_left ..
      · exact Nat.le_refl _

theorem State.peak_append {q q' : State} {ts : List Token} (h : q.after ts = some q')
    (us : List Token) : q.peak (ts ++ us) = max (q.peak ts) (q'.peak us) := by
  induction ts generalizing q with
  | nil =>
      obtain rfl : q = q' := Option.some.inj h
      exact (Nat.max_eq_right (q.load_le_peak us)).symm
  | cons t ts ih =>
      cases hs : q.step t with
      | none => exact absurd h (by simp [State.after, hs])
      | some q'' =>
          rw [State.after_cons hs] at h
          rw [List.cons_append, State.peak_cons hs, State.peak_cons hs, ih h, Nat.max_assoc]

theorem State.load_after_le_peak {q q' : State} {ts : List Token} (h : q.after ts = some q') :
    q'.load ≤ q.peak ts := by
  have := State.peak_append h []
  rw [List.append_nil] at this
  rw [this]
  exact Nat.le_max_right ..

theorem State.peak_le_iff {q : State} {ts : List Token} {n : Nat} :
    q.peak ts ≤ n ↔
      ∀ pre post r, ts = pre ++ post → q.after pre = some r → r.load ≤ n := by
  constructor
  · rintro h pre post r rfl hr
    rw [State.peak_append hr] at h
    have := r.load_le_peak post
    omega
  · intro h
    induction ts generalizing q with
    | nil => exact h [] [] q rfl rfl
    | cons t ts ih =>
        have hq : q.load ≤ n := h [] (t :: ts) q rfl rfl
        cases hs : q.step t with
        | none =>
            rw [State.peak, hs]
            exact hq
        | some r =>
            rw [State.peak_cons hs]
            refine Nat.max_le.mpr ⟨hq, ih fun pre post r' hts hr => ?_⟩
            exact h (t :: pre) post r' (by rw [hts, List.cons_append])
              (by rwa [State.after_cons hs])

/-! ## The load of a phrase -/

theorem Expr.recursion_binary (o : Operator) (l r : Expr) :
    (Expr.binary o l r).recursion =
      max l.recursion ((Frame.binary o l).load + r.recursion) := by
  cases o <;> simp [Expr.recursion, Frame.load]

mutual
/-- Reading a phrase adds the recursion of its tree to the load of the stack it stands on. -/
theorem Derives.peak : ∀ {k : Level} {ts : List Token} {e : Expr}, Derives k ts e →
    ∀ {stack : List Frame}, Admits k stack →
      (State.due stack).peak ts = stackLoad stack + e.recursion
  | _, _, _, .number l, stack, _ => Nat.max_self _
  | _, _, _, .name x, stack, _ => Nat.max_self _
  | _, _, _, .group (e := e) h, stack, _ => by
      have hadmits : Admits .sum (.group :: stack) := admits_of_isOpen rfl .sum stack
      obtain ⟨q, hq, hheld⟩ := h.after hadmits
      have hload := State.load_after_le_peak hq
      rw [h.peak hadmits, stackLoad_cons] at hload
      rw [State.peak_cons (r := .due (.group :: stack)) rfl, State.peak_append hq,
        State.peak_cons hheld.step_close_group, h.peak hadmits]
      simp only [State.peak, State.load, stackLoad_cons, Frame.load] at *
      omega
  | _, _, _, .callNothing f, stack, _ => by
      simp [State.peak, State.step, State.load, Frame.load, Expr.recursion, Expr.recursionList]
      omega
  | _, _, _, .call f h, stack, _ => by
      have hpeak := h.peak f [] stack
      obtain ⟨q, e, es, rfl, hq, hheld⟩ := h.after f [] stack
      have hload := State.load_after_le_peak hq
      rw [State.peak_cons (r := .named stack f) rfl,
        State.peak_cons (r := .due (.call f [] :: stack)) rfl, State.peak_append hq,
        State.peak_cons hheld.step_close_call]
      simp only [State.peak, State.load, Expr.recursion] at *
      omega
  | _, _, _, .signed (o := o) (s := s) hs h, stack, _ => by
      have hstep : (State.due stack).step (.operator o) = some (.due (.signed s :: stack)) := by
        simp [State.step, hs]
      rw [State.peak_cons hstep, h.peak (admits_signed s stack)]
      simp only [State.load, stackLoad_cons, Frame.load, Expr.recursion]
      omega
  | _, _, _, .binary o (l := l) (r := r) hl hr, stack, hstack => by
      obtain ⟨q, hq, hheld⟩ := hl.after hstack.left
      have hload := State.load_after_le_peak hq
      rw [State.peak_append hq, State.peak_cons (hheld.step_operator (hstack o (Nat.le_refl _))),
        hl.peak hstack.left, hr.peak (admits_right o l stack), Expr.recursion_binary o l r]
      rw [hl.peak hstack.left] at hload
      rw [stackLoad_cons]
      omega
  | _, _, _, .loosen hjk h, stack, hstack => h.peak (hstack.tighten hjk)
theorem DerivesList.peak : ∀ {ts : List Token} {es : List Expr}, DerivesList ts es →
    ∀ (f : String) (done : List Expr) (outer : List Frame),
      (State.due (.call f done :: outer)).peak ts =
        1 + stackLoad outer + Expr.recursionList es
  | _, _, .last h, f, done, outer => by
      rw [h.peak (admits_of_isOpen (f := .call f done) rfl .sum outer)]
      simp [Frame.load, Expr.recursionList]
  | _, _, .cons (e := e) h hs, f, done, outer => by
      have hadmits : Admits .sum (.call f done :: outer) := admits_of_isOpen rfl .sum outer
      obtain ⟨q, hq, hheld⟩ := h.after hadmits
      have hload := State.load_after_le_peak hq
      rw [h.peak hadmits] at hload
      rw [State.peak_append hq, State.peak_cons hheld.step_comma, h.peak hadmits,
        hs.peak f (e :: done) outer]
      simp only [stackLoad_cons, Frame.load, Expr.recursionList] at *
      omega
end

/-- The recursion of a tree is the largest load of the reader's stack. -/
theorem Derives.recursion_eq_peak {ts : List Token} {e : Expr} (h : Derives .sum ts e) :
    e.recursion = (State.due []).peak ts := by
  rw [h.peak (admits_nil .sum)]
  simp [stackLoad]

end Reckoner
