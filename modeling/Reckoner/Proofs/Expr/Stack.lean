/-
# `Reckoner.Proofs.Expr.Stack` — how deep evaluation recurses

While a node is evaluated, the evaluations of all nodes above it are under way and wait.
`Expr.evalWithin` is the evaluator on a stack with room for so many of them; where the evaluator
goes one step deeper than that, the stack overflows.

As deep as the tree is always enough: then the outcome is that of the evaluator, value or fault
(`Expr.evalWithin_of_depth_le`).  An evaluation that succeeds has been to every node and needs
that much (`Expr.evalWithin_of_lt_depth`); one that fails may do with less.
-/
import Reckoner.Expr.Eval
import Reckoner.Proofs.Outcome

namespace Reckoner

mutual
/-- The outcome of a tree, when at most `room` evaluations may be under way at a time.  Where more
would be, the stack overflows, and the error is `none`. -/
def Expr.evalWithin (r : Registry) (vars : Bindings) :
    (room : Nat) → Expr → Except (Option EvalFault) Number
  | 0, _ => .error none
  | _ + 1, .number v => .ok v
  | _ + 1, .name x => (evalName vars x).mapError some
  | n + 1, .signed s e => do
    let v ← e.evalWithin r vars n
    return s.apply v
  | n + 1, .binary o a b => do
    let x ← a.evalWithin r vars n
    let y ← b.evalWithin r vars n
    (o.apply x y).mapError fun fault => some (.operator o fault)
  | n + 1, .call f es =>
    match r.get? f with
    | none => .error (some (.unknownRoutine f))
    | some entry => do
      let vs ← evalListWithin r vars n es
      (entry.call vs).mapError fun fault => some (.call f fault)
def Expr.evalListWithin (r : Registry) (vars : Bindings) :
    (room : Nat) → List Expr → Except (Option EvalFault) (List Number)
  | _, [] => .ok []
  | n, e :: es => do
    let v ← e.evalWithin r vars n
    let vs ← evalListWithin r vars n es
    return v :: vs
end

theorem Expr.depth_pos (e : Expr) : 0 < e.depth := by
  cases e <;> simp only [depth] <;> omega

mutual
theorem Expr.depth_le_size : ∀ e : Expr, e.depth ≤ e.size
  | .number _ | .name _ => Nat.le_refl 1
  | .signed _ e => by
      have := e.depth_le_size
      rw [depth, size]
      omega
  | .binary _ a b => by
      have := a.depth_le_size
      have := b.depth_le_size
      rw [depth, size]
      omega
  | .call _ es => by
      have := Expr.depthList_le_sizeList es
      rw [depth, size]
      omega
theorem Expr.depthList_le_sizeList : ∀ es : List Expr, Expr.depthList es ≤ Expr.sizeList es
  | [] => Nat.le_refl 0
  | e :: es => by
      have := e.depth_le_size
      have := Expr.depthList_le_sizeList es
      rw [depthList, sizeList]
      omega
end

section

variable {r : Registry} {vars : Bindings}

mutual
theorem Expr.evalWithin_of_depth_le : ∀ (e : Expr) (n : Nat), e.depth ≤ n →
    e.evalWithin r vars n = (e.eval r vars).mapError some
  | e, 0, h => absurd e.depth_pos (Nat.not_lt_of_le h)
  | .number _, _ + 1, _ => rfl
  | .name _, _ + 1, _ => by rw [evalWithin, eval]
  | .signed _ e, n + 1, h => by
      rw [depth] at h
      rw [evalWithin, eval, mapError_bind, e.evalWithin_of_depth_le n (by omega)]
      rfl
  | .binary _ a b, n + 1, h => by
      rw [depth] at h
      rw [evalWithin, eval, a.evalWithin_of_depth_le n (by omega),
        b.evalWithin_of_depth_le n (by omega)]
      simp only [mapError_bind, mapError_mapError]
  | .call f es, n + 1, h => by
      rw [depth] at h
      rw [evalWithin, eval, Expr.evalListWithin_of_depthList_le es n (by omega)]
      cases r.get? f with
      | none => rfl
      | some entry => simp only [mapError_bind, mapError_mapError]
theorem Expr.evalListWithin_of_depthList_le : ∀ (es : List Expr) (n : Nat),
    Expr.depthList es ≤ n →
    Expr.evalListWithin r vars n es = (Expr.evalList r vars es).mapError some
  | [], _, _ => by
      rw [evalListWithin, evalList]
      rfl
  | e :: es, n, h => by
      rw [depthList] at h
      rw [evalListWithin, evalList, e.evalWithin_of_depth_le n (by omega),
        Expr.evalListWithin_of_depthList_le es n (by omega)]
      simp only [mapError_bind]
      rfl
end

mutual
theorem Expr.evalWithin_of_lt_depth : ∀ (e : Expr) (n : Nat) {v : Number}, n < e.depth →
    e.eval r vars = .ok v → e.evalWithin r vars n = .error none
  | _, 0, _, _, _ => by rw [evalWithin]
  | .number _, n + 1, _, h, _ | .name _, n + 1, _, h, _ => by
      rw [depth] at h
      omega
  | .signed _ e, n + 1, _, h, hv => by
      rw [depth] at h
      rw [eval] at hv
      obtain ⟨x, hx, -⟩ := bind_eq_ok_iff.mp hv
      rw [evalWithin, e.evalWithin_of_lt_depth n (by omega) hx]
      rfl
  | .binary _ a b, n + 1, _, h, hv => by
      rw [depth] at h
      rw [eval] at hv
      obtain ⟨x, hx, hv⟩ := bind_eq_ok_iff.mp hv
      obtain ⟨y, hy, -⟩ := bind_eq_ok_iff.mp hv
      rw [evalWithin]
      by_cases ha : a.depth ≤ n
      · rw [a.evalWithin_of_depth_le n ha, hx, b.evalWithin_of_lt_depth n (by omega) hy]
        rfl
      · rw [a.evalWithin_of_lt_depth n (by omega) hx]
        rfl
  | .call f es, n + 1, _, h, hv => by
      rw [depth] at h
      rw [eval] at hv
      rw [evalWithin]
      cases hf : r.get? f with
      | none =>
        rw [hf] at hv
        cases hv
      | some entry =>
        rw [hf] at hv
        obtain ⟨vs, hvs, -⟩ := bind_eq_ok_iff.mp hv
        simp only [Expr.evalListWithin_of_lt_depthList es n (by omega) hvs]
        rfl
theorem Expr.evalListWithin_of_lt_depthList : ∀ (es : List Expr) (n : Nat) {vs : List Number},
    n < Expr.depthList es → Expr.evalList r vars es = .ok vs →
    Expr.evalListWithin r vars n es = .error none
  | [], _, _, h, _ => absurd h (Nat.not_lt_zero _)
  | e :: es, n, _, h, hvs => by
      rw [depthList] at h
      rw [evalList] at hvs
      obtain ⟨v, hv, hvs⟩ := bind_eq_ok_iff.mp hvs
      obtain ⟨vs, hvs, -⟩ := bind_eq_ok_iff.mp hvs
      rw [evalListWithin]
      by_cases he : e.depth ≤ n
      · rw [e.evalWithin_of_depth_le n he, hv,
          Expr.evalListWithin_of_lt_depthList es n (by omega) hvs]
        rfl
      · rw [e.evalWithin_of_lt_depth n (by omega) hv]
        rfl
end

/-- An evaluation that succeeds needs room for the depth of its tree, and for no more. -/
theorem Expr.evalWithin_eq_ok_iff {e : Expr} {n : Nat} {v : Number} (hv : e.eval r vars = .ok v) :
    e.evalWithin r vars n = .ok v ↔ e.depth ≤ n := by
  constructor
  · intro h
    refine Nat.le_of_not_lt fun hlt => ?_
    rw [e.evalWithin_of_lt_depth n hlt hv] at h
    cases h
  · intro h
    rw [e.evalWithin_of_depth_le n h, hv]
    rfl

end

end Reckoner
