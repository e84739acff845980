/-
# `Reckoner.Proofs.Calculator.Call` — a routine within an expression and on its own

A routine can be called by an expression or directly, and the two ways have faults of
types of their own.  `CallFault.inExpression` translates: a call in an expression whose
arguments have values does what the direct call on these values does, and tells the
translation of its fault (`Expr.eval_call`).

What is left is a comparison of reports.  The sentence is the same in both, and the
kind too, except that a domain fault has a kind of its own only in a direct call.
-/
import Reckoner.Calculator
import Reckoner.Proofs.Routine.Registration

namespace Reckoner

/-! ## One call, two faults -/

theorem Expr.evalList_eq_ok {r : Registry} {vars : Bindings} {es : List Expr}
    {vs : List Number} (h : es.map (Expr.eval r vars) = vs.map Except.ok) :
    Expr.evalList r vars es = .ok vs := by
  induction es generalizing vs with
  | nil =>
      obtain rfl : vs = [] := List.map_eq_nil_iff.mp h.symm
      rfl
  | cons e es ih =>
      obtain ⟨v, vs, rfl, hv, hvs⟩ := List.map_eq_cons_iff.mp h.symm
      rw [Expr.evalList, ← hv, ih hvs.symm]
      rfl

/-- The fault of a direct call, as an expression with a call of `f` has it. -/
def CallFault.inExpression (f : String) : CallFault → EvalFault
  | .unknownRoutine name => .unknownRoutine name
  | .fault cause => .call f cause

theorem Expr.eval_call (c : Calculator) (vars : Bindings) (f : String) {es : List Expr}
    {vs : List Number} (h : Expr.evalList c.registry vars es = .ok vs) :
    (Expr.call f es).eval c.registry vars = (c.call f vs).mapError (CallFault.inExpression f) := by
  rw [Expr.eval, Calculator.call]
  cases c.registry.get? f with
  | none => rfl
  | some entry =>
      show (do let vs ← Expr.evalList c.registry vars es; (entry.call vs).mapError (.call f)) =
        ((entry.call vs).mapError CallFault.fault).mapError (CallFault.inExpression f)
      rw [h]
      show (entry.call vs).mapError (EvalFault.call f) = _
      cases entry.call vs with
      | ok v => rfl
      | error fault => rfl

/-! ## One call, two reports -/

/-- The kind under which a failure of a call goes in an expression. -/
def Kind.inExpression : Kind → Kind
  | .domain => .evaluation
  | k => k

theorem CallFault.message_inExpression (f : String) (d : CallFault) :
    (d.inExpression f).report.message = d.report.message := by
  cases d with
  | unknownRoutine name => rfl
  | fault cause => rfl

theorem CallFault.kind_inExpression (f : String) (d : CallFault) :
    (d.inExpression f).report.kind = d.report.kind.inExpression := by
  cases d with
  | unknownRoutine name => rfl
  | fault cause => cases cause <;> rfl

theorem CallFault.isZeroDivision_report (d : CallFault) : d.report.isZeroDivision = false := by
  cases d with
  | unknownRoutine name => rfl
  | fault cause => cases cause <;> rfl

theorem CallFault.isZeroDivision_inExpression (f : String) (d : CallFault) :
    (d.inExpression f).report.isZeroDivision = false := by
  cases d with
  | unknownRoutine name => rfl
  | fault cause => rfl

/-- **A call is the same in an expression and on its own.**  If the arguments of a call have
values, the call and the direct call on these values have the same number, or both fail with the
same sentence.  Neither failure is a division by zero, a domain fault of the direct call is an
evaluation failure in the expression, and any other kind is kept.  An unknown routine has one
report. -/
theorem call_agrees (c : Calculator) (vars : Bindings) (f : String) {es : List Expr}
    {vs : List Number} (h : es.map (Expr.eval c.registry vars) = vs.map Except.ok) :
    (∃ v, (Expr.call f es).eval c.registry vars = .ok v ∧ c.call f vs = .ok v) ∨
    ∃ fault direct, (Expr.call f es).eval c.registry vars = .error fault ∧
      c.call f vs = .error direct ∧
      fault.report.message = direct.report.message ∧
      fault.report.isZeroDivision = direct.report.isZeroDivision ∧
      fault.report.kind = direct.report.kind.inExpression ∧
      (c.registry.contains f = false →
        fault.report = direct.report ∧ direct.report.kind = .malformed) := by
  rw [Expr.eval_call c vars f (Expr.evalList_eq_ok h)]
  cases hcall : c.call f vs with
  | ok v => exact Or.inl ⟨v, rfl, rfl⟩
  | error d =>
      right
      have hzero : (d.inExpression f).report.isZeroDivision = d.report.isZeroDivision := by
        rw [d.isZeroDivision_inExpression, d.isZeroDivision_report]
      refine ⟨_, d, rfl, rfl, d.message_inExpression f, hzero, d.kind_inExpression f, ?_⟩
      intro hf
      have hnone : c.registry.get? f = none := by
        simpa [Registry.contains_eq_isSome] using hf
      rw [Calculator.call, hnone] at hcall
      obtain rfl := Except.error.inj hcall
      exact ⟨rfl, rfl⟩

/-- A logarithm to a base that is computed, and is one. -/
theorem call_agrees_bad_base :
    let vars : Bindings := [("x", 10.0)]
    let es : List Expr := [.name "x", .binary .subtract (.number 3.0) (.number 2.0)]
    let fault : Fault := .domain "logn" (.badBase 1.0)
    es.map (Expr.eval .standard vars) = [10.0, 1.0].map Except.ok ∧
      (Expr.call "logn" es).eval .standard vars = .error (.call "logn" fault) ∧
      ({} : Calculator).call "logn" [10.0, 1.0] = .error (.fault fault) ∧
      (EvalFault.call "logn" fault).report.message = (CallFault.fault fault).report.message ∧
      (CallFault.fault fault).report.kind = .domain ∧
      (EvalFault.call "logn" fault).report.kind = Kind.domain.inExpression := by
  intro vars es fault
  have hvs : es.map (Expr.eval .standard vars) = [10.0, 1.0].map Except.ok := by
    with_unfolding_all rfl
  have hcall : ({} : Calculator).call "logn" [10.0, 1.0] = .error (.fault fault) := by
    rw [Calculator.call, Registry.get?_standard]
    with_unfolding_all rfl
  obtain ⟨v, -, hv⟩ | ⟨fault', direct, heval, hdirect, hmessage, -, hkind, -⟩ :=
    call_agrees {} vars "logn" hvs
  · exact nomatch hcall.symm.trans hv
  · obtain rfl := Except.error.inj (hcall.symm.trans hdirect)
    have hfault : fault' = .call "logn" fault := by
      have heval' : (Expr.call "logn" es).eval .standard vars = .error (.call "logn" fault) := by
        rw [Expr.eval, Registry.get?_standard]
        with_unfolding_all rfl
      exact Except.error.inj (heval.symm.trans heval')
    subst hfault
    exact ⟨hvs, heval, hcall, hmessage, rfl, hkind⟩

end Reckoner
