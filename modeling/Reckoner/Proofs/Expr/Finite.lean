/-
# `Reckoner.Proofs.Expr.Finite` — finite numbers in, finite numbers out

An infinity and not-a-number can enter a computation only from outside: as the value
of a variable, as an argument of a direct call, or as a number in a tree that was
not read from a text.  If none does, none comes out, whatever the registry.
-/
import Reckoner.Calculator
import Reckoner.Proofs.Grammar.Leaves
import Reckoner.Proofs.Number.Finite

namespace Reckoner

def Bindings.Finite (vars : Bindings) : Prop := ∀ x v, vars.get? x = some v → v.isFinite = true

theorem isFinite_of_constant? {x : String} {v : Number} (h : constant? x = some v) :
    v.isFinite = true := by
  unfold constant? at h
  split at h
  · obtain rfl := Option.some.inj h
    decide
  · obtain rfl := Option.some.inj h
    decide
  · exact nomatch h

theorem isFinite_of_evalName {vars : Bindings} (hvars : vars.Finite) {x : String} {v : Number}
    (h : evalName vars x = .ok v) : v.isFinite = true := by
  unfold evalName at h
  split at h
  · rename_i w hw
    obtain rfl := Except.ok.inj h
    exact isFinite_of_constant? hw
  · split at h
    · rename_i w hw
      obtain rfl := Except.ok.inj h
      exact hvars x w hw
    · exact nomatch h

variable {r : Registry} {vars : Bindings}

mutual
theorem Expr.isFinite_of_eval (hvars : vars.Finite) : ∀ {e : Expr} {v : Number},
    (∀ w ∈ e.numbers, w.isFinite = true) → e.eval r vars = .ok v → v.isFinite = true
  | .number w, v, hnumbers, h => by
      obtain rfl := Except.ok.inj h
      exact hnumbers w List.mem_cons_self
  | .name x, v, _, h => isFinite_of_evalName hvars h
  | .signed s e, v, hnumbers, h => by
      obtain ⟨w, hw, h⟩ := bind_eq_ok_iff.mp h
      obtain rfl := Except.ok.inj h
      exact s.isFinite_apply (Expr.isFinite_of_eval (e := e) hvars hnumbers hw)
  | .binary o a b, v, hnumbers, h => by
      obtain ⟨x, hx, h⟩ := bind_eq_ok_iff.mp h
      obtain ⟨y, hy, h⟩ := bind_eq_ok_iff.mp h
      have hxfinite := Expr.isFinite_of_eval hvars
        (fun w hw => hnumbers w (List.mem_append_left _ hw)) hx
      have hyfinite := Expr.isFinite_of_eval hvars
        (fun w hw => hnumbers w (List.mem_append_right _ hw)) hy
      exact Operator.isFinite_of_apply hxfinite hyfinite (mapError_eq_ok_iff.mp h)
  | .call f es, v, hnumbers, h => by
      rw [Expr.eval] at h
      split at h
      · exact nomatch h
      · obtain ⟨vs, hvs, h⟩ := bind_eq_ok_iff.mp h
        exact Entry.isFinite_of_call (Expr.isFinite_of_evalList hvars hnumbers hvs)
          (mapError_eq_ok_iff.mp h)
theorem Expr.isFinite_of_evalList (hvars : vars.Finite) : ∀ {es : List Expr} {vs : List Number},
    (∀ w ∈ Expr.numbersList es, w.isFinite = true) → Expr.evalList r vars es = .ok vs →
      ∀ v ∈ vs, v.isFinite = true
  | [], vs, _, h => by
      obtain rfl := Except.ok.inj h
      exact fun v hv => nomatch hv
  | e :: es, vs, hnumbers, h => by
      obtain ⟨v, hv, h⟩ := bind_eq_ok_iff.mp h
      obtain ⟨vs, hvs, h⟩ := bind_eq_ok_iff.mp h
      obtain rfl := Except.ok.inj h
      intro u hu
      rcases List.mem_cons.mp hu with rfl | hu
      · exact Expr.isFinite_of_eval hvars
          (fun w hw => hnumbers w (List.mem_append_left _ hw)) hv
      · exact Expr.isFinite_of_evalList hvars
          (fun w hw => hnumbers w (List.mem_append_right _ hw)) hvs u hu
end

/-- **Finite in, finite out.**  From finite variables, finite numbers in a tree and finite
arguments no calculator makes an infinity or not-a-number; the literals of a text it checks
itself. -/
theorem finite_of_finite (c : Calculator) (vars : Bindings) (hvars : vars.Finite) :
    (∀ text v, c.evaluate vars text = .ok v → v.isFinite = true) ∧
    (∀ (e : Expr) (v : Number), (∀ w ∈ e.numbers, w.isFinite = true) →
      e.eval c.registry vars = .ok v → v.isFinite = true) ∧
    (∀ (name : String) (xs : List Number) (v : Number), (∀ x ∈ xs, x.isFinite = true) →
      c.call name xs = .ok v → v.isFinite = true) := by
  refine ⟨fun text v h => ?_, fun e v => Expr.isFinite_of_eval hvars, fun name xs v hxs h => ?_⟩
  · obtain ⟨_, _, h⟩ := bind_eq_ok_iff.mp h
    obtain ⟨e, he, h⟩ := bind_eq_ok_iff.mp h
    exact Expr.isFinite_of_eval hvars
      (isFinite_of_mem_numbers_parse (mapError_eq_ok_iff.mp he)) (mapError_eq_ok_iff.mp h)
  · unfold Calculator.call at h
    split at h
    · exact Entry.isFinite_of_call hxs (mapError_eq_ok_iff.mp h)
    · exact nomatch h

/-- A finite variable and a finite literal, with a sign and a product. -/
theorem finite_of_finite_product :
    Bindings.Finite [("x", 2.5)] ∧
      ({} : Calculator).evaluate [("x", 2.5)] "-x * 3" = .ok (-7.5) ∧
      (-7.5 : Number).isFinite = true := by
  have hvars : Bindings.Finite [("x", 2.5)] := by
    intro x v h
    by_cases hx : x = "x"
    · subst hx
      obtain rfl := Option.some.inj h
      decide +kernel
    · have hne : (x == "x") = false := by simpa using hx
      exact absurd h (by simp [Bindings.get?, List.lookup_cons, hne])
  have heval : ({} : Calculator).evaluate [("x", 2.5)] "-x * 3" = .ok (-7.5) := by
    with_unfolding_all rfl
  exact ⟨hvars, heval, (finite_of_finite {} _ hvars).1 _ _ heval⟩

end Reckoner
