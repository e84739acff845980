/-
# `Reckoner.Proofs.Expr.Subst` — a variable stands for the tree it was computed from

A tree may be put in the place of a name, or its value may be bound to the name.
Evaluation cannot tell the two apart, faults included: the tree has a value, so
wherever it is put it brings no fault of its own and hides none of another.

The name must not be a constant, which no binding reaches.  Routines are called by
names of another kind, and neither substitution nor binding touches them.
-/
import Reckoner.Expr.Eval
import Reckoner.Proofs.Routine.Registration

namespace Reckoner

/-! ## Bound names -/

@[simp] theorem Bindings.get?_bind_self (vars : Bindings) (x : String) (v : Number) :
    (vars.bind x v).get? x = some v := by
  rw [get?, bind, List.lookup_cons, beq_self_eq_true]

theorem Bindings.get?_bind_of_ne (vars : Bindings) {x y : String} (h : y ≠ x) (v : Number) :
    (vars.bind x v).get? y = vars.get? y := by
  have hne : (y == x) = false := beq_eq_false_iff_ne.mpr h
  rw [get?, bind, List.lookup_cons, hne]
  rfl

theorem constant?_eq_none {x : String} (hpi : x ≠ "pi") (he : x ≠ "e") : constant? x = none := by
  unfold constant?
  split
  · exact absurd rfl hpi
  · exact absurd rfl he
  · rfl

theorem evalName_bind_self {x : String} (hx : constant? x = none) (vars : Bindings) (v : Number) :
    evalName (vars.bind x v) x = .ok v := by
  rw [evalName, hx, Bindings.get?_bind_self]

theorem evalName_bind_of_ne {x y : String} (h : y ≠ x) (vars : Bindings) (v : Number) :
    evalName (vars.bind x v) y = evalName vars y := by
  rw [evalName, evalName, Bindings.get?_bind_of_ne vars h]

/-! ## Substitution -/

variable {r : Registry} {vars bound : Bindings} {x : String} {u : Expr}

mutual
/-- If `x` has under `bound` the outcome that `u` has under `vars`, and every other name the same
outcome under both, then the tree has under `bound` the outcome of the tree with `u` for `x`. -/
theorem Expr.eval_subst (hx : evalName bound x = u.eval r vars)
    (hother : ∀ y, y ≠ x → evalName bound y = evalName vars y) : ∀ t : Expr,
      (Expr.subst x u t).eval r vars = t.eval r bound
  | .number _ => rfl
  | .name y => by
      rw [subst, eval]
      by_cases hy : y = x
      · rw [if_pos hy, hy, hx]
      · rw [if_neg hy, eval, hother y hy]
  | .signed _ e => by
      rw [subst, eval, eval, Expr.eval_subst hx hother e]
  | .binary _ a b => by
      rw [subst, eval, eval, Expr.eval_subst hx hother a, Expr.eval_subst hx hother b]
  | .call _ es => by
      rw [subst, eval, eval, Expr.evalList_substList hx hother es]
theorem Expr.evalList_substList (hx : evalName bound x = u.eval r vars)
    (hother : ∀ y, y ≠ x → evalName bound y = evalName vars y) : ∀ ts : List Expr,
      Expr.evalList r vars (Expr.substList x u ts) = Expr.evalList r bound ts
  | [] => rfl
  | t :: ts => by
      rw [substList, evalList, evalList, Expr.eval_subst hx hother t,
        Expr.evalList_substList hx hother ts]
end

/-- **Binding is substitution.**  If `u` has the value `v`, then a tree with `u` in the place of
every `x` has the same outcome, value or fault, as the tree itself with `x` bound to `v`.  What `x`
was bound to before does not matter. -/
theorem eval_subst_eq_eval_bind (r : Registry) (vars : Bindings) {x : String} (hpi : x ≠ "pi")
    (he : x ≠ "e") {u : Expr} {v : Number} (hu : u.eval r vars = .ok v) (t : Expr) :
    (Expr.subst x u t).eval r vars = t.eval r (vars.bind x v) := by
  have hx : evalName (vars.bind x v) x = u.eval r vars := by
    rw [hu, evalName_bind_self (constant?_eq_none hpi he)]
  apply Expr.eval_subst hx
  intro y hy
  exact evalName_bind_of_ne hy vars v

/-- The variable is bound already; its new value spoils a root, whose fault comes before that of
the division by zero beside it. -/
theorem eval_subst_eq_eval_bind_root :
    let t : Expr := .binary .add (.call "sqrt" [.name "x"])
      (.binary .divide (.name "x") (.number 0.0))
    let u : Expr := .binary .subtract (.name "x") (.number 5.0)
    let vars : Bindings := [("x", 2.0)]
    "x" ≠ "pi" ∧ "x" ≠ "e" ∧ u.eval .standard vars = .ok (-3.0) ∧
      (Expr.subst "x" u t).eval .standard vars = t.eval .standard (vars.bind "x" (-3.0)) ∧
      t.eval .standard (vars.bind "x" (-3.0)) =
        .error (.call "sqrt" (.domain "sqrt" (.squareRootOfNegative (-3.0)))) := by
  intro t u vars
  have hpi : "x" ≠ "pi" := by decide
  have he : "x" ≠ "e" := by decide
  have hu : u.eval .standard vars = .ok (-3.0) := by with_unfolding_all rfl
  have hfault : t.eval .standard (vars.bind "x" (-3.0)) =
      .error (.call "sqrt" (.domain "sqrt" (.squareRootOfNegative (-3.0)))) := by
    simp only [t, Expr.eval, Registry.get?_standard]
    with_unfolding_all rfl
  exact ⟨hpi, he, hu, eval_subst_eq_eval_bind .standard vars hpi he hu t, hfault⟩

end Reckoner
