/-
# `Reckoner.Proofs.Expr.Scope` — which variables a tree sees

The outcome of a tree depends on its own names alone, the constants left out: two bindings
that agree on these cannot be told apart, whatever else they bind.  The names of routines
are not among them, so a variable with the name of a routine is not seen by its calls.

When bindings are extended, outcomes persist.  The only ones that may change are those of
variables without a value.  Any other fault is the first in the order of evaluation, all
names before it have values, and these stay.

Both are one induction, over an outcome that persists unless it is one of some faults
(`Persists`, `Expr.eval_persists`).  In the first case there are no such faults.
-/
import Reckoner.Proofs.Expr.Subst

namespace Reckoner

/-! ## Outcomes that persist -/

/-- `Persists p x y`: the outcome `x` is also the outcome `y`, unless it is a fault with `p`. -/
inductive Persists {α : Type} (p : EvalFault → Prop) :
    Except EvalFault α → Except EvalFault α → Prop where
  | same (x : Except EvalFault α) : Persists p x x
  | fault {cause : EvalFault} (y : Except EvalFault α) : p cause → Persists p (.error cause) y

theorem Persists.bind {α β : Type} {p : EvalFault → Prop} {x y : Except EvalFault α}
    {f g : α → Except EvalFault β} (h : Persists p x y) (hf : ∀ a, Persists p (f a) (g a)) :
    Persists p (x >>= f) (y >>= g) := by
  cases h with
  | same =>
      cases x with
      | ok a => exact hf a
      | error cause => exact .same _
  | fault _ hp => exact .fault _ hp

theorem Persists.eq {α : Type} {p : EvalFault → Prop} {x y : Except EvalFault α}
    (h : Persists p x y) (hx : ∀ cause, x = .error cause → ¬p cause) : y = x := by
  cases h with
  | same => rfl
  | fault _ hp => exact absurd hp (hx _ rfl)

/-! ## Names -/

section

variable {r : Registry} {vars vars' : Bindings}

theorem evalName_congr {x : String}
    (h : x ≠ "pi" → x ≠ "e" → vars.get? x = vars'.get? x) : evalName vars' x = evalName vars x := by
  by_cases hpi : x = "pi"
  · rw [hpi]
    rfl
  by_cases he : x = "e"
  · rw [he]
    rfl
  · rw [evalName, evalName, h hpi he]

theorem evalName_persists (h : ∀ x v, vars.get? x = some v → vars'.get? x = some v) (x : String) :
    Persists (fun cause => ∃ y, cause = .unknownVariable y)
      (evalName vars x) (evalName vars' x) := by
  rw [evalName, evalName]
  cases constant? x with
  | some v => exact .same _
  | none =>
      cases hx : vars.get? x with
      | some v =>
          rw [h x v hx]
          exact .same _
      | none => exact .fault _ ⟨x, rfl⟩

/-! ## Trees -/

variable {p : EvalFault → Prop}

mutual
/-- The outcome of a tree persists if those of its names do. -/
theorem Expr.eval_persists : ∀ t : Expr,
    (∀ x ∈ t.names, Persists p (evalName vars x) (evalName vars' x)) →
      Persists p (t.eval r vars) (t.eval r vars')
  | .number v, _ => .same (.ok v)
  | .name x, h => by
      rw [eval, eval]
      exact h x (List.mem_singleton_self x)
  | .signed s e, h => by
      rw [eval, eval]
      exact (e.eval_persists h).bind fun v => .same _
  | .binary o a b, h => by
      obtain ⟨ha, hb⟩ := List.forall_mem_append.mp h
      rw [eval, eval]
      exact (a.eval_persists ha).bind fun x => (b.eval_persists hb).bind fun y => .same _
  | .call f es, h => by
      rw [eval, eval]
      cases r.get? f with
      | none => exact .same _
      | some entry => exact (Expr.evalList_persists es h).bind fun vs => .same _
theorem Expr.evalList_persists : ∀ es : List Expr,
    (∀ x ∈ Expr.namesList es, Persists p (evalName vars x) (evalName vars' x)) →
      Persists p (Expr.evalList r vars es) (Expr.evalList r vars' es)
  | [], _ => .same (.ok [])
  | e :: es, h => by
      obtain ⟨he, hes⟩ := List.forall_mem_append.mp h
      rw [evalList, evalList]
      exact (e.eval_persists he).bind fun v =>
        (Expr.evalList_persists es hes).bind fun vs => .same _
end

theorem Expr.eval_congr {t : Expr}
    (h : ∀ x ∈ t.names, x ≠ "pi" → x ≠ "e" → vars.get? x = vars'.get? x) :
    t.eval r vars' = t.eval r vars := by
  have hnames : ∀ x ∈ t.names, Persists (fun _ => False) (evalName vars x) (evalName vars' x) := by
    intro x hx
    rw [evalName_congr (h x hx)]
    exact .same _
  exact (t.eval_persists hnames).eq fun _ _ => id

end

/-- **A tree sees its own variables only.**  Two bindings that agree on the names of a tree, the
constants left out, give it the same outcome, value or fault; so what stands for a constant, or for
a name that occurs in the tree as that of a routine or not at all, does not matter.  And if the
bindings are extended, every outcome stays, but for the fault of a variable without a value. -/
theorem sees_names_only (r : Registry) (t : Expr) (vars vars' : Bindings) :
    ((∀ x ∈ t.names, x ≠ "pi" → x ≠ "e" → vars.get? x = vars'.get? x) →
      t.eval r vars' = t.eval r vars) ∧
    (∀ y, y = "pi" ∨ y = "e" ∨ y ∉ t.names → (∀ x, x ≠ y → vars.get? x = vars'.get? x) →
      t.eval r vars' = t.eval r vars) ∧
    ((∀ x v, vars.get? x = some v → vars'.get? x = some v) →
      (∀ x, t.eval r vars ≠ .error (.unknownVariable x)) → t.eval r vars' = t.eval r vars) := by
  refine ⟨Expr.eval_congr, fun y hy hother => Expr.eval_congr fun x hx hpi he => ?_,
    fun hextends hknown => ?_⟩
  · apply hother
    rintro rfl
    rcases hy with hy | hy | hy
    · exact hpi hy
    · exact he hy
    · exact hy hx
  · have hpersists := t.eval_persists (r := r) fun x _ => evalName_persists hextends x
    apply hpersists.eq
    rintro cause hcause ⟨x, rfl⟩
    exact hknown x hcause

/-- Neither a variable with the name of a routine nor one with that of a constant is seen; the
division by zero stays. -/
theorem sees_names_only_routine :
    let t : Expr := .binary .divide (.name "e") (.call "sqrt" [.name "x"])
    let vars : Bindings := [("x", 0.0)]
    let routine := vars.bind "sqrt" 5.0
    let constant := vars.bind "e" 1.0
    let both := routine.bind "e" 1.0
    t.eval .standard vars = .error (.operator .divide .divisionByZero) ∧
      ((∀ x ∈ t.names, x ≠ "pi" → x ≠ "e" → vars.get? x = both.get? x) ∧
        t.eval .standard both = t.eval .standard vars) ∧
      ((∀ x, x ≠ "e" → vars.get? x = constant.get? x) ∧
        t.eval .standard constant = t.eval .standard vars) ∧
      (∀ x v, vars.get? x = some v → routine.get? x = some v) ∧
      (∀ x, t.eval .standard vars ≠ .error (.unknownVariable x)) ∧
      t.eval .standard routine = t.eval .standard vars := by
  intro t vars routine constant both
  have hzero : t.eval .standard vars = .error (.operator .divide .divisionByZero) := by
    simp only [t, Expr.eval, Registry.get?_standard]
    with_unfolding_all rfl
  have hrebound : ∀ x, x ≠ "e" → vars.get? x = constant.get? x := fun x hx =>
    (Bindings.get?_bind_of_ne vars hx 1.0).symm
  have hroutine : ∀ x, x ≠ "sqrt" → vars.get? x = routine.get? x := fun x hx =>
    (Bindings.get?_bind_of_ne vars hx 5.0).symm
  have hagree : ∀ x ∈ t.names, x ≠ "pi" → x ≠ "e" → vars.get? x = both.get? x := by
    intro x hx _ he
    have hsqrt : x ≠ "sqrt" := by
      rintro rfl
      exact absurd hx (by decide)
    rw [Bindings.get?_bind_of_ne routine he, hroutine x hsqrt]
  have hextends : ∀ x v, vars.get? x = some v → routine.get? x = some v := by
    intro x v hx
    have hsqrt : x ≠ "sqrt" := by
      rintro rfl
      cases hx
    rw [← hroutine x hsqrt, hx]
  have hknown : ∀ x, t.eval .standard vars ≠ .error (.unknownVariable x) := by
    intro x hx
    cases hzero.symm.trans hx
  exact ⟨hzero, ⟨hagree, (sees_names_only .standard t vars both).1 hagree⟩,
    ⟨hrebound, (sees_names_only .standard t vars constant).2.1 "e" (Or.inr (Or.inl rfl)) hrebound⟩,
    hextends, hknown, (sees_names_only .standard t vars routine).2.2 hextends hknown⟩

end Reckoner
