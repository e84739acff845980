/-
# `Reckoner.Proofs.Expr.Order` — which of many faults is told

`Expr.visits` lists the points at which the evaluation of a tree may stop, in the
order in which they are come to: children from left to right and then their
parent, but a call is entered by its name before its arguments.  What is told at a
point (`Visit.report?`) depends on the point alone: on the values of its children,
which `Expr.value?` computes from the leaves up and without an order, and not on
what stands above it or beside it.

`eval_tells_first_visit` says that evaluation tells what is told at the first point
at which anything is told, and otherwise gives the value of the tree.
-/
import Reckoner.Expr.Eval
import Reckoner.Proofs.Outcome

namespace Reckoner

/-! ## Values from the leaves up -/

mutual
/-- The value of a tree, if all its parts have values.  `pi` and `e` are fixed. -/
def Expr.value? (r : Registry) (vars : Bindings) : Expr → Option Number
  | .number v => some v
  | .name x =>
    if x = "pi" then some Routine.piValue
    else if x = "e" then some 2.718281828459045
    else vars.get? x
  | .signed s e => (e.value? r vars).map s.apply
  | .binary o a b =>
    (a.value? r vars).bind fun x => (b.value? r vars).bind fun y => (o.apply x y).toOption
  | .call f es =>
    (r.get? f).bind fun entry => (valueList? r vars es).bind fun vs => (entry.call vs).toOption
def Expr.valueList? (r : Registry) (vars : Bindings) : List Expr → Option (List Number)
  | [] => some []
  | e :: es =>
    (e.value? r vars).bind fun v => (Expr.valueList? r vars es).map (v :: ·)
end

/-! ## Visits -/

/-- A point at which evaluation may stop. -/
inductive Visit where
  /-- The name of a call, before the arguments. -/
  | enter (routine : String)
  /-- A node, after its children. -/
  | leave (e : Expr)

mutual
/-- The points of a tree in the order of evaluation. -/
def Expr.visits : Expr → List Visit
  | .number v => [.leave (.number v)]
  | .name x => [.leave (.name x)]
  | .signed s e => e.visits ++ [.leave (.signed s e)]
  | .binary o a b => a.visits ++ b.visits ++ [.leave (.binary o a b)]
  | .call f es => .enter f :: visitsList es ++ [.leave (.call f es)]
def Expr.visitsList : List Expr → List Visit
  | [] => []
  | e :: es => e.visits ++ Expr.visitsList es
end

def Visit.isLeave : Visit → Bool
  | .enter _ => false
  | .leave _ => true

mutual
theorem Expr.countP_isLeave_visits : ∀ e : Expr, e.visits.countP Visit.isLeave = e.size
  | .number _ => rfl
  | .name _ => rfl
  | .signed _ e => by
      rw [visits, size, List.countP_append, e.countP_isLeave_visits]
      exact Nat.add_comm ..
  | .binary _ a b => by
      rw [visits, size, List.countP_append, List.countP_append, a.countP_isLeave_visits,
        b.countP_isLeave_visits, List.countP_singleton, Visit.isLeave, if_pos rfl]
      omega
  | .call _ es => by
      rw [visits, size, List.cons_append, List.countP_cons, List.countP_append,
        countP_isLeave_visitsList es, List.countP_singleton, Visit.isLeave, Visit.isLeave,
        if_pos rfl, if_neg Bool.false_ne_true]
      omega
theorem Expr.countP_isLeave_visitsList : ∀ es : List Expr,
    (Expr.visitsList es).countP Visit.isLeave = Expr.sizeList es
  | [] => rfl
  | e :: es => by
      rw [visitsList, sizeList, List.countP_append, e.countP_isLeave_visits,
        countP_isLeave_visitsList es]
end

/-- What is told at a point, given the values of the node's children. -/
def Visit.report? (r : Registry) (vars : Bindings) : Visit → Option Report
  | .enter f =>
    if r.contains f then none
    else some ⟨.malformed, "Unknown function: " ++ f, [("function", f)]⟩
  | .leave (.name x) =>
    if x = "pi" ∨ x = "e" ∨ (vars.get? x).isSome then none
    else some ⟨.malformed, "Unknown variable: " ++ x, [("variable", x)]⟩
  | .leave (.binary o a b) =>
    match a.value? r vars, b.value? r vars with
    | some x, some y =>
      match o.apply x y with
      | .ok _ => none
      | .error fault => some ⟨fault.kind, fault.text, [("operator", o.symbol)]⟩
    | _, _ => none
  | .leave (.call f es) =>
    match r.get? f, Expr.valueList? r vars es with
    | some entry, some vs =>
      match entry.call vs with
      | .ok _ => none
      | .error fault => some ⟨.evaluation, fault.text, [("function", f)]⟩
    | _, _ => none
  | .leave (.number _) | .leave (.signed ..) => none

/-! ## Evaluation stops at the first report -/

/-- What evaluation tells, if it has no value to give. -/
def toldBy {α : Type} : Except EvalFault α → Option Report
  | .ok _ => none
  | .error fault => some fault.report

theorem toldBy_mapError {ε α : Type} (f : ε → EvalFault) (a : Except ε α) :
    toldBy (a.mapError f) = match a with
      | .ok _ => none
      | .error fault => some (f fault).report := by
  cases a <;> rfl

/-- No fault of an operator is unforeseen, so its report takes the note. -/
theorem report_operator (o : Operator) (fault : OperatorFault) :
    (EvalFault.operator o fault).report = ⟨fault.kind, fault.text, [("operator", o.symbol)]⟩ := by
  cases fault <;> rfl

variable (r : Registry) (vars : Bindings)

theorem constant?_eq (x : String) :
    constant? x = if x = "pi" then some (Number.ofFloat Routine.piValue)
      else if x = "e" then some 2.718281828459045 else none := by
  unfold constant?
  split
  · rfl
  · rfl
  · rename_i hpi he
    rw [if_neg hpi, if_neg he]

theorem evalName_visit (x : String) :
    (Expr.name x).value? r vars = (evalName vars x).toOption ∧
      (Visit.leave (.name x)).report? r vars = toldBy (evalName vars x) := by
  rw [evalName, constant?_eq, Expr.value?, Visit.report?]
  by_cases hpi : x = "pi"
  · simp [hpi, toldBy, Except.toOption]
  by_cases he : x = "e"
  · simp [he, toldBy, Except.toOption]
  cases hx : vars.get? x with
  | none => simp [hpi, he, toldBy, Except.toOption, EvalFault.report]
  | some v => simp [hpi, he, toldBy, Except.toOption]

theorem report?_leave_binary {o : Operator} {a b : Expr} {x y : Number}
    (hx : a.value? r vars = some x) (hy : b.value? r vars = some y) :
    (Visit.leave (.binary o a b)).report? r vars =
      toldBy ((o.apply x y).mapError (EvalFault.operator o)) := by
  rw [Visit.report?, hx, hy, toldBy_mapError]
  cases hv : o.apply x y with
  | ok v => simp only [hv]
  | error fault => simp only [hv, report_operator]

theorem report?_leave_call {f : String} {es : List Expr} {entry : Entry} {vs : List Number}
    (hf : r.get? f = some entry) (hvs : Expr.valueList? r vars es = some vs) :
    (Visit.leave (.call f es)).report? r vars =
      toldBy ((entry.call vs).mapError (EvalFault.call f)) := by
  rw [Visit.report?, hf, hvs, toldBy_mapError]
  cases hv : entry.call vs with
  | ok v => simp only [hv]
  | error fault => simp only [hv, EvalFault.report]

mutual
/-- A tree has a value when evaluation finds one, and evaluation tells what is told first. -/
theorem Expr.eval_visits : ∀ e : Expr,
    e.value? r vars = (e.eval r vars).toOption ∧
      e.visits.findSome? (Visit.report? r vars) = toldBy (e.eval r vars)
  | .number _ => ⟨rfl, rfl⟩
  | .name x => by
      obtain ⟨hvalue, htold⟩ := evalName_visit r vars x
      refine ⟨hvalue, ?_⟩
      rw [visits, List.findSome?_singleton, htold, eval]
  | .signed s e => by
      obtain ⟨hvalue, htold⟩ := e.eval_visits
      rw [value?, visits, eval, List.findSome?_append, hvalue, htold]
      cases e.eval r vars with
      | error fault => exact ⟨rfl, rfl⟩
      | ok v => exact ⟨rfl, rfl⟩
  | .binary o a b => by
      obtain ⟨hx, hatold⟩ := a.eval_visits
      obtain ⟨hy, hbtold⟩ := b.eval_visits
      rw [value?, visits, eval, List.findSome?_append, List.findSome?_append,
        List.findSome?_singleton, hatold, hbtold]
      -- a fault on the left hides one on the right, and both hide that of the operator
      cases ha : a.eval r vars with
      | error fault =>
        rw [ha] at hx
        rw [hx]
        exact ⟨rfl, rfl⟩
      | ok x =>
        rw [ha] at hx
        rw [hx]
        cases hb : b.eval r vars with
        | error fault =>
          rw [hb] at hy
          rw [hy]
          exact ⟨rfl, rfl⟩
        | ok y =>
          rw [hb] at hy
          rw [hy, report?_leave_binary r vars hx hy]
          exact ⟨(toOption_mapError (EvalFault.operator o) (o.apply x y)).symm, rfl⟩
  | .call f es => by
      obtain ⟨hvs, htold⟩ := eval_visitsList es
      rw [value?, visits, eval, List.cons_append, List.findSome?_cons, List.findSome?_append,
        List.findSome?_singleton, Visit.report?, Registry.contains_eq_isSome, htold]
      cases hf : r.get? f with
      | none => exact ⟨rfl, rfl⟩
      | some entry =>
        cases hes : evalList r vars es with
        | error fault =>
          rw [hes] at hvs
          rw [hvs]
          exact ⟨rfl, rfl⟩
        | ok vs =>
          rw [hes] at hvs
          rw [hvs, report?_leave_call r vars hf hvs]
          exact ⟨(toOption_mapError (EvalFault.call f) (entry.call vs)).symm, rfl⟩
theorem Expr.eval_visitsList : ∀ es : List Expr,
    Expr.valueList? r vars es = (Expr.evalList r vars es).toOption ∧
      (Expr.visitsList es).findSome? (Visit.report? r vars) = toldBy (Expr.evalList r vars es)
  | [] => ⟨rfl, rfl⟩
  | e :: es => by
      obtain ⟨hvalue, htold⟩ := e.eval_visits
      obtain ⟨hvalues, htolds⟩ := eval_visitsList es
      rw [valueList?, visitsList, evalList, List.findSome?_append, hvalue, htold, hvalues, htolds]
      cases e.eval r vars with
      | error fault => exact ⟨rfl, rfl⟩
      | ok v =>
        cases evalList r vars es with
        | error fault => exact ⟨rfl, rfl⟩
        | ok vs => exact ⟨rfl, rfl⟩
end

/-- **The first report wins.**  A tree has a value exactly when nothing is told at any of its
points, and it is then the value computed from the leaves up; otherwise evaluation tells what is
told at the first point at which anything is told, and adds nothing to it. -/
theorem eval_tells_first_visit (e : Expr) :
    ((∃ v, e.eval r vars = .ok v) ↔ ∀ u ∈ e.visits, u.report? r vars = none) ∧
    (∀ v, e.eval r vars = .ok v ↔ e.value? r vars = some v) ∧
    (∀ report, (∃ fault, e.eval r vars = .error fault ∧ fault.report = report) ↔
      ∃ earlier u later, e.visits = earlier ++ u :: later ∧ u.report? r vars = some report ∧
        ∀ w ∈ earlier, w.report? r vars = none) := by
  obtain ⟨hvalue, htold⟩ := e.eval_visits r vars
  refine ⟨?_, fun v => ?_, fun report => ?_⟩
  · rw [← List.findSome?_eq_none_iff, htold]
    cases e.eval r vars with
    | ok v => simp [toldBy]
    | error fault => simp [toldBy]
  · rw [hvalue]
    cases e.eval r vars with
    | ok w => simp [Except.toOption]
    | error fault => simp [Except.toOption]
  · rw [← List.findSome?_eq_some_iff, htold]
    cases e.eval r vars with
    | ok v => simp [toldBy]
    | error fault => simp [toldBy]

end Reckoner
