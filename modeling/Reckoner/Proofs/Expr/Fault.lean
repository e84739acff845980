/-
# `Reckoner.Proofs.Expr.Fault` — at which node a fault arises

A fault is told by one point of the tree, the first at which anything is told
(`Expr.StopsAt`).  Its report shows what kind of point that is: only a name that stands
for nothing is malformed, and only a quotient or a remainder by zero is a division by
zero (`Visit.Tells`).
-/
import Reckoner.Proofs.Expr.Order

namespace Reckoner

/-! ## Where evaluation stops -/

/-- Evaluation stops at `u`: something is told there and nothing before. -/
def Expr.StopsAt (r : Registry) (vars : Bindings) (e : Expr) (u : Visit) : Prop :=
  ∃ earlier later, e.visits = earlier ++ u :: later ∧ (u.report? r vars).isSome = true ∧
    ∀ w ∈ earlier, w.report? r vars = none

section

variable {r : Registry} {vars : Bindings}

theorem Expr.exists_stopsAt {e : Expr} {fault : EvalFault} (h : e.eval r vars = .error fault) :
    ∃ u, e.StopsAt r vars u := by
  have htold := (e.eval_visits r vars).2
  rw [h, toldBy] at htold
  obtain ⟨earlier, u, later, hvisits, hu, hearlier⟩ := List.findSome?_eq_some_iff.mp htold
  exact ⟨u, earlier, later, hvisits, by rw [hu]; rfl, hearlier⟩

theorem Expr.StopsAt.report?_eq {e : Expr} {u : Visit} (hu : e.StopsAt r vars u)
    {fault : EvalFault} (h : e.eval r vars = .error fault) :
    u.report? r vars = some fault.report := by
  obtain ⟨earlier, later, hvisits, hsome, hearlier⟩ := hu
  obtain ⟨report, hreport⟩ := Option.isSome_iff_exists.mp hsome
  have hfirst : e.visits.findSome? (Visit.report? r vars) = some report :=
    List.findSome?_eq_some_iff.mpr ⟨earlier, u, later, hvisits, hreport, hearlier⟩
  rw [(e.eval_visits r vars).2, h, toldBy] at hfirst
  rw [hreport, hfirst]

/-! ## What a point tells -/

/-- `Tells u report`: why something is told at `u`, and what. -/
inductive Visit.Tells (r : Registry) (vars : Bindings) : Visit → Report → Prop where
  | unknownRoutine (f : String) : r.get? f = none →
      Tells r vars (.enter f) ⟨.malformed, "Unknown function: " ++ f, [("function", f)]⟩
  | unknownVariable (x : String) : vars.get? x = none →
      Tells r vars (.leave (.name x)) ⟨.malformed, "Unknown variable: " ++ x, [("variable", x)]⟩
  | operator (o : Operator) {a b : Expr} {x y : Number} {fault : OperatorFault} :
      a.value? r vars = some x → b.value? r vars = some y → o.apply x y = .error fault →
      Tells r vars (.leave (.binary o a b)) ⟨fault.kind, fault.text, [("operator", o.symbol)]⟩
  | call (f : String) {es : List Expr} {entry : Entry} {vs : List Number} {fault : Fault} :
      r.get? f = some entry → Expr.valueList? r vars es = some vs →
      entry.call vs = .error fault →
      Tells r vars (.leave (.call f es)) ⟨.evaluation, fault.text, [("function", f)]⟩

theorem Visit.tells_of_report? {u : Visit} {report : Report} (h : u.report? r vars = some report) :
    u.Tells r vars report := by
  cases u with
  | enter f =>
      rw [Visit.report?] at h
      split at h
      · exact nomatch h
      · rename_i hf
        obtain rfl := Option.some.inj h
        exact .unknownRoutine f (by simpa [Registry.contains_eq_isSome] using hf)
  | leave e =>
      cases e with
      | number v | signed s e => exact nomatch h
      | name x =>
          rw [Visit.report?] at h
          split at h
          · exact nomatch h
          · rename_i hx
            obtain rfl := Option.some.inj h
            exact .unknownVariable x (by simpa using fun hv => hx (Or.inr (Or.inr hv)))
      | binary o a b =>
          rw [Visit.report?] at h
          split at h
          · rename_i x y hx hy
            split at h
            · exact nomatch h
            · rename_i fault hfault
              obtain rfl := Option.some.inj h
              exact .operator o hx hy hfault
          · exact nomatch h
      | call f es =>
          rw [Visit.report?] at h
          split at h
          · rename_i entry vs hf hvs
            split at h
            · exact nomatch h
            · rename_i fault hfault
              obtain rfl := Option.some.inj h
              exact .call f hf hvs hfault
          · exact nomatch h

/-- Where evaluation stops, the fault is told for one of the four reasons. -/
theorem Expr.StopsAt.tells {e : Expr} {u : Visit} (hu : e.StopsAt r vars u) {fault : EvalFault}
    (h : e.eval r vars = .error fault) : u.Tells r vars fault.report :=
  Visit.tells_of_report? (hu.report?_eq h)

/-! ## Which faults are malformed, and which divide by zero -/

/-- Division and remainder refuse a zero on their right, whatever stands on their left. -/
theorem Operator.exists_compute_of_zero {o : Operator} (ho : o = .divide ∨ o = .modulo)
    (x : Number) {y : Number} (hy : (y.toFloat == 0.0) = true) :
    ∃ fault, o.compute x y = .error fault := by
  rcases ho with rfl | rfl
  · exact ⟨_, if_pos hy⟩
  · exact ⟨_, if_pos hy⟩

theorem Operator.compute_eq_error {o : Operator} {x y : Number} {fault : OperatorFault}
    (h : o.compute x y = .error fault) :
    (fault.kind = .zeroDivision ∧ (o = .divide ∨ o = .modulo) ∧ (y.toFloat == 0.0) = true) ∨
      (fault.kind = .evaluation ∧ o = .power) := by
  cases o with
  | add | subtract | multiply => exact nomatch h
  | divide =>
      rw [Operator.compute] at h
      split at h
      · rename_i hy
        obtain rfl := Except.error.inj h
        exact Or.inl ⟨rfl, Or.inl rfl, hy⟩
      · exact nomatch h
  | modulo =>
      rw [Operator.compute] at h
      split at h
      · rename_i hy
        obtain rfl := Except.error.inj h
        exact Or.inl ⟨rfl, Or.inr rfl, hy⟩
      · exact nomatch h
  | power =>
      obtain ⟨violation, -, rfl⟩ := mapError_eq_error_iff.mp h
      exact Or.inr ⟨rfl, rfl⟩

theorem Operator.kind_eq_zeroDivision_iff {o : Operator} {x y : Number} {fault : OperatorFault}
    (h : o.apply x y = .error fault) :
    fault.kind = .zeroDivision ↔ (o = .divide ∨ o = .modulo) ∧ (y.toFloat == 0.0) = true := by
  rcases bind_eq_error_iff.mp h with hcompute | ⟨v, hcompute, hoverflow⟩
  · rcases Operator.compute_eq_error hcompute with ⟨hkind, ho, hy⟩ | ⟨hkind, rfl⟩
    · exact ⟨fun _ => ⟨ho, hy⟩, fun _ => hkind⟩
    · rw [hkind]
      simp
  · split at hoverflow
    · obtain rfl := Except.error.inj hoverflow
      constructor
      · intro hkind
        exact nomatch hkind
      · rintro ⟨ho, hy⟩
        obtain ⟨fault, hfault⟩ := Operator.exists_compute_of_zero ho x hy
        exact nomatch hcompute.symm.trans hfault
    · exact nomatch hoverflow

theorem OperatorFault.kind_cases (f : OperatorFault) :
    f.kind = .zeroDivision ∨ f.kind = .evaluation := by
  cases f with
  | divisionByZero | moduloByZero => exact Or.inl rfl
  | power cause | overflow => exact Or.inr rfl

theorem Expr.kind_eq_malformed_iff {e : Expr} {fault : EvalFault}
    (h : e.eval r vars = .error fault) :
    fault.report.kind = .malformed ↔
      (∃ x, e.StopsAt r vars (.leave (.name x)) ∧ vars.get? x = none) ∨
        ∃ f, e.StopsAt r vars (.enter f) ∧ r.get? f = none := by
  constructor
  · intro hkind
    obtain ⟨u, hu⟩ := Expr.exists_stopsAt h
    have htells := hu.tells h
    -- `Tells` is taken apart by its report, which has to be a variable for that.
    generalize fault.report = report at hkind htells
    cases htells with
    | unknownRoutine f hf => exact Or.inr ⟨f, hu, hf⟩
    | unknownVariable x hx => exact Or.inl ⟨x, hu, hx⟩
    | @operator o a b x y cause =>
        have hkind : cause.kind = .malformed := hkind
        rcases cause.kind_cases with hcause | hcause
        · exact nomatch hcause.symm.trans hkind
        · exact nomatch hcause.symm.trans hkind
    | call f => exact nomatch hkind
  · rintro (⟨x, hx, -⟩ | ⟨f, hf, -⟩)
    · have htells := hx.tells h
      generalize fault.report = report at htells ⊢
      cases htells
      rfl
    · have htells := hf.tells h
      generalize fault.report = report at htells ⊢
      cases htells
      rfl

theorem Expr.isZeroDivision_iff {e : Expr} {fault : EvalFault} (h : e.eval r vars = .error fault) :
    fault.report.isZeroDivision = true ↔
      ∃ o a b y, e.StopsAt r vars (.leave (.binary o a b)) ∧ (o = .divide ∨ o = .modulo) ∧
        b.eval r vars = .ok y ∧ (y.toFloat == 0.0) = true := by
  rw [Report.isZeroDivision, decide_eq_true_iff]
  constructor
  · intro hkind
    obtain ⟨u, hu⟩ := Expr.exists_stopsAt h
    have htells := hu.tells h
    generalize fault.report = report at hkind htells
    cases htells with
    | unknownRoutine f | unknownVariable x | call f => exact nomatch hkind
    | @operator o a b x y cause ha hb hv =>
        obtain ⟨ho, hy⟩ := (Operator.kind_eq_zeroDivision_iff hv).mp hkind
        rw [(b.eval_visits r vars).1] at hb
        exact ⟨o, a, b, y, hu, ho, eq_ok_of_toOption hb, hy⟩
  · rintro ⟨o, a, b, y, hu, ho, hb, hy⟩
    have htells := hu.tells h
    generalize fault.report = report at htells ⊢
    cases htells with
    | @operator _ _ _ x y' cause ha hb' hv =>
        rw [(b.eval_visits r vars).1, hb] at hb'
        obtain rfl : y = y' := Option.some.inj hb'
        exact (Operator.kind_eq_zeroDivision_iff hv).mpr ⟨ho, hy⟩

end

end Reckoner
