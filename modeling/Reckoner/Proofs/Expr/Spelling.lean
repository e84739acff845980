/-
# `Reckoner.Proofs.Expr.Spelling` — different spellings of one computation

A power has three spellings, a decimal logarithm two, and so has a logarithm to a given
base.  Within a tree any of them may stand for the other (`spellings_interchangeable`): the
value is the same, and so is the kind of a failure, though not its sentence, which names
the operator or the routine that was written.

The two ways of computing a power, by an operator and by an entry, have checks of their
own.  Both let a number through that is finite, or whose operands are not all finite
(`inRange`); what they check is the same function of the same operands.  All else is a
congruence: outcomes that agree (`Agree`) are passed on by every chain of computations.
-/
import Reckoner.Proofs.Expr.Fault
import Reckoner.Proofs.Routine.Registration

namespace Reckoner

/-! ## Spellings -/

/-- The spellings of `a` to the power of `b`. -/
def powers (a b : Expr) : List Expr :=
  [.binary .power a b, .call "power" [a, b], .call "pow" [a, b]]

/-- The spellings of the decimal logarithm of `a`. -/
def decimalLogarithms (a : Expr) : List Expr := [.call "log" [a], .call "log10" [a]]

/-- The spellings of the logarithm of `a` to the base `b`. -/
def logarithms (a b : Expr) : List Expr := [.call "log" [a, b], .call "logn" [a, b]]

mutual
/-- `Respelled e e'`: the trees differ in the spelling of some nodes. -/
inductive Respelled : Expr → Expr → Prop where
  | same (e : Expr) : Respelled e e
  | signed (s : Sign) {e e' : Expr} : Respelled e e' → Respelled (.signed s e) (.signed s e')
  | binary (o : Operator) {a a' b b' : Expr} :
      Respelled a a' → Respelled b b' → Respelled (.binary o a b) (.binary o a' b')
  | call (f : String) {es es' : List Expr} :
      RespelledList es es' → Respelled (.call f es) (.call f es')
  | power {a a' b b' e e' : Expr} : Respelled a a' → Respelled b b' →
      e ∈ powers a b → e' ∈ powers a' b' → Respelled e e'
  | decimalLogarithm {a a' e e' : Expr} : Respelled a a' →
      e ∈ decimalLogarithms a → e' ∈ decimalLogarithms a' → Respelled e e'
  | logarithm {a a' b b' e e' : Expr} : Respelled a a' → Respelled b b' →
      e ∈ logarithms a b → e' ∈ logarithms a' b' → Respelled e e'
inductive RespelledList : List Expr → List Expr → Prop where
  | nil : RespelledList [] []
  | cons {e e' : Expr} {es es' : List Expr} :
      Respelled e e' → RespelledList es es' → RespelledList (e :: es) (e' :: es')
end

/-! ## Outcomes that agree -/

/-- The same value, or failures of the same kind. -/
inductive Agree {α : Type} : Except EvalFault α → Except EvalFault α → Prop where
  | ok (a : α) : Agree (.ok a) (.ok a)
  | error {cause cause' : EvalFault} :
      cause.report.kind = cause'.report.kind → Agree (.error cause) (.error cause')

section

variable {α β : Type} {x y z : Except EvalFault α}

theorem Agree.refl : ∀ x : Except EvalFault α, Agree x x
  | .ok a => .ok a
  | .error _ => .error rfl

theorem Agree.symm (h : Agree x y) : Agree y x := by
  cases h with
  | ok a => exact .ok a
  | error hkind => exact .error hkind.symm

theorem Agree.trans (h : Agree x y) (h' : Agree y z) : Agree x z := by
  cases h with
  | ok a => exact h'
  | error hkind =>
      cases h' with
      | error hkind' => exact .error (hkind.trans hkind')

theorem Agree.bind {f g : α → Except EvalFault β} (h : Agree x y) (hf : ∀ a, Agree (f a) (g a)) :
    Agree (x >>= f) (y >>= g) := by
  cases h with
  | ok a => exact hf a
  | error hkind => exact .error hkind

/-- Computations with the same value agree if all that can go wrong in them is of one kind. -/
theorem agree_of_toOption_eq {ε δ : Type} {x : Except ε α} {y : Except δ α} {f : ε → EvalFault}
    {g : δ → EvalFault} {k : Kind} (h : x.toOption = y.toOption)
    (hf : ∀ cause, x = .error cause → (f cause).report.kind = k)
    (hg : ∀ cause, y = .error cause → (g cause).report.kind = k) :
    Agree (x.mapError f) (y.mapError g) := by
  cases x with
  | ok a =>
      cases y with
      | ok b =>
          obtain rfl := Option.some.inj h
          exact .ok a
      | error cause => exact nomatch h
  | error cause =>
      cases y with
      | ok b => exact nomatch h
      | error cause' => exact .error ((hf cause rfl).trans (hg cause' rfl).symm)

end

/-! ## Checks behind a result -/

/-- The check behind every operator and entry: a number is finite, or not all operands are. -/
def inRange (xs : List Number) (v : Number) : Bool := v.isFinite || !xs.all Number.isFinite

theorem Operator.toOption_apply (o : Operator) (x y : Number) :
    (o.apply x y).toOption = (o.compute x y).toOption.filter (inRange [x, y]) := by
  rw [Operator.apply]
  cases o.compute x y with
  | error fault => rfl
  | ok v =>
      have hcheck : inRange [x, y] v = !(!v.isFinite && x.isFinite && y.isFinite) := by
        simp [inRange, Bool.or_assoc]
      simp only [bind, Except.bind, Except.toOption, Option.filter_some, hcheck]
      cases !v.isFinite && x.isFinite && y.isFinite <;> rfl

theorem Entry.toOption_call {e : Entry} {xs : List Number} {answer : Except Violation Number}
    (haccepts : e.arity.accepts xs.length = true)
    (hanswer : e.routine.body.answer? xs = some answer) :
    (e.call xs).toOption = answer.toOption.filter (inRange xs) := by
  rw [Entry.call, if_pos haccepts]
  cases answer with
  | error violation =>
      rw [Routine.run, hanswer]
      rfl
  | ok v =>
      have hrun : e.routine.run xs = .ok v := by
        rw [Routine.run, hanswer]
        rfl
      have hcheck : inRange xs v = !(!v.isFinite && xs.all Number.isFinite) := by
        simp [inRange]
      simp only [hrun, Except.toOption, Option.filter_some, hcheck]
      cases !v.isFinite && xs.all Number.isFinite <;> rfl

theorem kind_power {x y : Number} {fault : OperatorFault}
    (h : Operator.power.apply x y = .error fault) :
    (EvalFault.operator .power fault).report.kind = .evaluation := by
  rw [report_operator]
  refine fault.kind_cases.resolve_left fun hkind => ?_
  obtain ⟨ho, -⟩ := (Operator.kind_eq_zeroDivision_iff h).mp hkind
  simp at ho

/-! ## Spellings of one node -/

section

variable {vars : Bindings} {f g : String} {d e : Entry}

theorem Expr.eval_call_one (hf : Registry.standard.get? f = some d) (a : Expr) :
    (Expr.call f [a]).eval .standard vars =
      a.eval .standard vars >>= fun x => (d.call [x]).mapError (.call f) := by
  rw [eval, hf, evalList]
  cases a.eval .standard vars <;> rfl

theorem Expr.eval_call_two (hf : Registry.standard.get? f = some d) (a b : Expr) :
    (Expr.call f [a, b]).eval .standard vars =
      a.eval .standard vars >>= fun x => b.eval .standard vars >>= fun y =>
        (d.call [x, y]).mapError (.call f) := by
  rw [eval, hf, evalList, evalList]
  cases a.eval .standard vars with
  | error cause => rfl
  | ok x => cases b.eval .standard vars <;> rfl

theorem agree_call_one (hf : Registry.standard.get? f = some d)
    (hg : Registry.standard.get? g = some e)
    (hsame : ∀ x, (d.call [x]).toOption = (e.call [x]).toOption) (a : Expr) :
    Agree ((Expr.call f [a]).eval .standard vars) ((Expr.call g [a]).eval .standard vars) := by
  rw [Expr.eval_call_one hf, Expr.eval_call_one hg]
  refine (Agree.refl _).bind fun x => ?_
  exact agree_of_toOption_eq (k := .evaluation) (hsame x) (fun _ _ => rfl) fun _ _ => rfl

theorem agree_call_two (hf : Registry.standard.get? f = some d)
    (hg : Registry.standard.get? g = some e)
    (hsame : ∀ x y, (d.call [x, y]).toOption = (e.call [x, y]).toOption) (a b : Expr) :
    Agree ((Expr.call f [a, b]).eval .standard vars)
      ((Expr.call g [a, b]).eval .standard vars) := by
  rw [Expr.eval_call_two hf, Expr.eval_call_two hg]
  refine (Agree.refl _).bind fun x => (Agree.refl _).bind fun y => ?_
  exact agree_of_toOption_eq (k := .evaluation) (hsame x y) (fun _ _ => rfl) fun _ _ => rfl

theorem agree_power_call (hf : Registry.standard.get? f = some d)
    (haccepts : d.arity.accepts 2 = true)
    (hanswer : ∀ x y, d.routine.body.answer? [x, y] = some (Routine.realPower x y)) (a b : Expr) :
    Agree ((Expr.call f [a, b]).eval .standard vars)
      ((Expr.binary .power a b).eval .standard vars) := by
  rw [Expr.eval_call_two hf, Expr.eval]
  refine (Agree.refl _).bind fun x => (Agree.refl _).bind fun y => ?_
  have hsame : (d.call [x, y]).toOption = (Operator.power.apply x y).toOption := by
    rw [Entry.toOption_call haccepts (hanswer x y), Operator.toOption_apply, Operator.compute,
      toOption_mapError]
  exact agree_of_toOption_eq hsame (fun _ _ => rfl) fun _ => kind_power

end

section

variable {vars : Bindings} {a b e : Expr}

theorem agree_powers (he : e ∈ powers a b) :
    Agree (e.eval .standard vars) ((Expr.binary .power a b).eval .standard vars) := by
  simp only [powers, List.mem_cons, List.not_mem_nil, or_false] at he
  rcases he with rfl | rfl | rfl
  · exact .refl _
  · exact agree_power_call (Registry.get?_standard_of_find? _ rfl) rfl (fun _ _ => rfl) a b
  · exact agree_power_call (Registry.get?_standard_of_find? _ rfl) rfl (fun _ _ => rfl) a b

theorem agree_decimalLogarithms (he : e ∈ decimalLogarithms a) :
    Agree (e.eval .standard vars) ((Expr.call "log" [a]).eval .standard vars) := by
  simp only [decimalLogarithms, List.mem_cons, List.not_mem_nil, or_false] at he
  rcases he with rfl | rfl
  · exact .refl _
  · refine agree_call_one (Registry.get?_standard_of_find? _ rfl)
      (Registry.get?_standard_of_find? _ rfl) (fun x => ?_) a
    rw [Entry.toOption_call rfl rfl, Entry.toOption_call rfl rfl]

theorem agree_logarithms (he : e ∈ logarithms a b) :
    Agree (e.eval .standard vars) ((Expr.call "log" [a, b]).eval .standard vars) := by
  simp only [logarithms, List.mem_cons, List.not_mem_nil, or_false] at he
  rcases he with rfl | rfl
  · exact .refl _
  · refine agree_call_two (Registry.get?_standard_of_find? _ rfl)
      (Registry.get?_standard_of_find? _ rfl) (fun x y => ?_) a b
    rw [Entry.toOption_call rfl rfl, Entry.toOption_call rfl rfl]

end

/-! ## Trees -/

/-- Where two nodes have spellings of their own, it is enough to compare one spelling of each. -/
theorem Agree.of_spellings {x x' y y' : Except EvalFault Number} (hx : Agree x x')
    (hy : Agree y y') (h : Agree x' y') : Agree x y :=
  hx.trans (h.trans hy.symm)

section

variable {vars : Bindings}

mutual
theorem Respelled.agree : ∀ {e e' : Expr}, Respelled e e' →
    Agree (e.eval .standard vars) (e'.eval .standard vars)
  | _, _, .same e => .refl _
  | _, _, .signed s h => by
      rw [Expr.eval, Expr.eval]
      exact h.agree.bind fun v => .refl _
  | _, _, .binary o ha hb => by
      rw [Expr.eval, Expr.eval]
      exact ha.agree.bind fun x => hb.agree.bind fun y => .refl _
  | _, _, .call f h => by
      rw [Expr.eval, Expr.eval]
      cases Registry.standard.get? f with
      | none => exact .refl _
      | some entry => exact h.agree.bind fun vs => .refl _
  | _, _, .power ha hb he he' => by
      refine (agree_powers he).of_spellings (agree_powers he') ?_
      rw [Expr.eval, Expr.eval]
      exact ha.agree.bind fun x => hb.agree.bind fun y => .refl _
  | _, _, .decimalLogarithm ha he he' => by
      refine (agree_decimalLogarithms he).of_spellings (agree_decimalLogarithms he') ?_
      have hlog := Registry.get?_standard_of_find? "log" rfl
      rw [Expr.eval_call_one hlog, Expr.eval_call_one hlog]
      exact ha.agree.bind fun x => .refl _
  | _, _, .logarithm ha hb he he' => by
      refine (agree_logarithms he).of_spellings (agree_logarithms he') ?_
      have hlog := Registry.get?_standard_of_find? "log" rfl
      rw [Expr.eval_call_two hlog, Expr.eval_call_two hlog]
      exact ha.agree.bind fun x => hb.agree.bind fun y => .refl _
theorem RespelledList.agree : ∀ {es es' : List Expr}, RespelledList es es' →
    Agree (Expr.evalList .standard vars es) (Expr.evalList .standard vars es')
  | _, _, .nil => .refl _
  | _, _, .cons h hs => by
      rw [Expr.evalList, Expr.evalList]
      exact h.agree.bind fun v => hs.agree.bind fun vs => .refl _
end

end

/-- **Spellings are interchangeable.**  If any powers and logarithms of a tree are spelled in
another way, the tree has the same value, if it has one; otherwise it fails with the same kind of
failure, and both failures are divisions by zero or none is.  The variables may have any values. -/
theorem spellings_interchangeable {e e' : Expr} (h : Respelled e e') (vars : Bindings) :
    (∀ v, e.eval .standard vars = .ok v ↔ e'.eval .standard vars = .ok v) ∧
    (∀ fault, e.eval .standard vars = .error fault →
      ∃ fault', e'.eval .standard vars = .error fault' ∧
        fault'.report.kind = fault.report.kind ∧
        fault'.report.isZeroDivision = fault.report.isZeroDivision) := by
  have hagree : Agree (e.eval .standard vars) (e'.eval .standard vars) := h.agree
  revert hagree
  generalize e.eval .standard vars = x
  generalize e'.eval .standard vars = y
  intro hagree
  cases hagree with
  | ok v => exact ⟨fun w => Iff.rfl, fun fault hfault => nomatch hfault⟩
  | @error cause cause' hkind =>
      refine ⟨fun w => ⟨nofun, nofun⟩, fun fault hfault => ?_⟩
      obtain rfl := Except.error.inj hfault
      refine ⟨cause', rfl, hkind.symm, ?_⟩
      rw [Report.isZeroDivision, Report.isZeroDivision, hkind]

/-- An undefined power within a logarithm, both spelled in two ways. -/
theorem spellings_interchangeable_undefined :
    let e : Expr := .call "log" [.binary .add (.binary .power (.name "x") (.number 0.0))
      (.binary .divide (.number 1.0) (.name "x"))]
    let e' : Expr := .call "log10" [.binary .add (.call "pow" [.name "x", .number 0.0])
      (.binary .divide (.number 1.0) (.name "x"))]
    let vars : Bindings := [("x", -0.0)]
    Respelled e e' ∧
      e.eval .standard vars =
        .error (.operator .power (.power (.domain "power" .zeroToZero))) ∧
      ∃ fault', e'.eval .standard vars = .error fault' ∧ fault'.report.kind = .evaluation ∧
        fault'.report.isZeroDivision = false := by
  intro e e' vars
  have hx : Respelled (.name "x") (.name "x") := .same _
  have hzero : Respelled (.number 0.0) (.number 0.0) := .same _
  have hpower : Respelled (.binary .power (.name "x") (.number 0.0))
      (.call "pow" [.name "x", .number 0.0]) :=
    .power hx hzero List.mem_cons_self (by simp [powers])
  have hsum : Respelled
      (.binary .add (.binary .power (.name "x") (.number 0.0))
        (.binary .divide (.number 1.0) (.name "x")))
      (.binary .add (.call "pow" [.name "x", .number 0.0])
        (.binary .divide (.number 1.0) (.name "x"))) :=
    .binary .add hpower (.same _)
  have h : Respelled e e' :=
    .decimalLogarithm hsum List.mem_cons_self (List.mem_cons_of_mem _ List.mem_cons_self)
  have hfault : e.eval .standard vars =
      .error (.operator .power (.power (.domain "power" .zeroToZero))) := by
    rw [Expr.eval, Registry.get?_standard]
    with_unfolding_all rfl
  obtain ⟨fault', hfault', hkind, hdivision⟩ := (spellings_interchangeable h vars).2 _ hfault
  exact ⟨h, hfault, fault', hfault', hkind, hdivision⟩

end Reckoner
