/-
# `Reckoner.Proofs.Routine.Domain` — how a call fails, and when

The documentation gives the domain of a routine in real numbers: a logarithm wants
`x > 0`, an odd root takes a negative `x`.  `InDomain` says the same of the exact
values of the arguments, by the name of the entry.  The routines themselves test
doubles, with comparisons, a look at fractional bits and a remainder.  For each body
one lemma (`isOk_unitInterval` to `isOk_sampleVariance`) says that the test and the
domain agree on finite numbers.

A call has three checks, one after another: the count of the arguments, the domain,
the range of the result.  `call_classified` says that each of them fails exactly when
it should, for every entry of the standard registry.  The body also checks the count
for itself, and never in vain: what the entry lets through, it takes.
-/
import Reckoner.Proofs.Binary64.Integral
import Reckoner.Proofs.Number.Finite
import Reckoner.Proofs.Routine.Registration

namespace Reckoner

def Number.exact (x : Number) : Rat := Binary64.toRat x.toFloat

/-- The documented domain of the entry with a name. -/
def InDomain : String → List Rat → Prop
  | "asin", [x] | "acos", [x] => -1 ≤ x ∧ x ≤ 1
  | "log10", [x] | "ln", [x] | "log", [x] => 0 < x
  | "logn", [x, b] | "log", [x, b] => 0 < x ∧ 0 < b ∧ b ≠ 1
  | "power", [x, y] | "pow", [x, y] =>
      ¬(x = 0 ∧ y = 0) ∧ ¬(x = 0 ∧ y < 0) ∧ (x < 0 → ∃ n : Int, y = n)
  | "sqrt", [x] => 0 ≤ x
  | "nthroot", [x, n] => 0 < n ∧ (x < 0 → ∃ k : Int, Odd k ∧ n = k)
  | "variance", xs | "stdev", xs => 2 ≤ xs.length
  | _, _ => True

/-! ## What the bodies test -/

section Bodies

open Binary64

theorem isOk_map {α β ε : Type} (f : α → β) (a : Except ε α) : (a.map f).isOk = a.isOk := by
  cases a <;> rfl

theorem isOk_unless {ε α : Type} {c : Prop} [Decidable c] {v : ε} {a : Except ε α} :
    (if c then .error v else a).isOk = true ↔ ¬c ∧ a.isOk = true := by
  by_cases h : c
  · rw [if_pos h]
    exact iff_of_false Bool.false_ne_true fun h' => h'.1 h
  · rw [if_neg h]
    exact (and_iff_right h).symm

theorem isOk_when {ε α : Type} {c : Prop} [Decidable c] {v : ε} {a : Except ε α} :
    (if c then a else .error v).isOk = true ↔ c ∧ a.isOk = true := by
  rw [← ite_not, isOk_unless, not_not]

theorem isOk_ok {ε α : Type} (a : α) : (Except.ok a : Except ε α).isOk = true := rfl

variable {x y : Number} (hx : x.isFinite = true) (hy : y.isFinite = true)

include hx

theorem isOk_unitInterval :
    (Routine.unitInterval x).isOk = true ↔ -1 ≤ x.exact ∧ x.exact ≤ 1 := by
  rw [Routine.unitInterval, isOk_when, le_iff isFinite_neg_one hx,
    le_iff hx isFinite_one, toRat_neg_one, toRat_one]
  exact and_iff_left (isOk_ok x)

theorem isOk_positive : (Routine.positive x).isOk = true ↔ 0 < x.exact := by
  rw [Routine.positive, isOk_when, zero_lt_iff hx]
  exact and_iff_left (isOk_ok x)

theorem isOk_realSquareRoot : (Routine.realSquareRoot x).isOk = true ↔ 0 ≤ x.exact := by
  rw [Routine.realSquareRoot, isOk_unless, lt_zero_iff hx, not_lt]
  exact and_iff_left (isOk_ok _)

include hy

theorem isOk_logarithm : (Routine.logarithm x y).isOk = true ↔
    0 < x.exact ∧ 0 < y.exact ∧ y.exact ≠ 1 := by
  have hpositive := isOk_positive hx
  cases h : Routine.positive x with
  | error v =>
      rw [h] at hpositive
      rw [Routine.logarithm, h, ← hpositive]
      exact iff_of_false Bool.false_ne_true fun h' => Bool.false_ne_true h'.1
  | ok x' =>
      rw [h] at hpositive
      have hrun : Routine.logarithm x y =
          if y.toFloat ≤ 0.0 || y.toFloat == 1.0 then .error (.badBase y.toFloat)
          else .ok (x'.map Float.log / y.map Float.log) := by
        rw [Routine.logarithm, h]
        rfl
      rw [hrun, isOk_unless, Bool.or_eq_true, decide_eq_true_iff, le_zero_iff hy, beq_one_iff hy,
        not_or, not_le, and_iff_left (isOk_ok _), and_iff_right (hpositive.mp rfl)]
      rfl

theorem isOk_realPower : (Routine.realPower x y).isOk = true ↔
    ¬(x.exact = 0 ∧ y.exact = 0) ∧ ¬(x.exact = 0 ∧ y.exact < 0) ∧
      (x.exact < 0 → ∃ n : Int, y.exact = n) := by
  rw [Routine.realPower, isOk_unless, isOk_unless, isOk_unless, and_iff_left (isOk_ok _)]
  simp only [Bool.and_eq_true, decide_eq_true_iff, Bool.not_eq_true', beq_zero_iff hx,
    beq_zero_iff hy, lt_zero_iff hx, lt_zero_iff hy, not_and, Bool.not_eq_false,
    isIntegral_iff hy]
  rfl

theorem isOk_realRoot : (Routine.realRoot x y).isOk = true ↔
    0 < y.exact ∧ (x.exact < 0 → ∃ k : Int, Odd k ∧ y.exact = k) := by
  rw [Routine.realRoot, isOk_unless, le_zero_iff hy, not_le]
  refine and_congr_right fun _ => ?_
  by_cases h : x.exact < 0
  · rw [if_neg (by rw [zero_le_iff hx]; exact not_le.mpr h), isOk_unless,
      and_iff_left (isOk_ok _), Bool.not_eq_true', Bool.not_eq_false, isOdd_iff hy]
    exact ⟨fun hodd _ => hodd, fun hodd => hodd h⟩
  · rw [if_pos ((zero_le_iff hx).mpr (not_lt.mp h))]
    exact iff_of_true rfl fun h' => absurd h' h

end Bodies

theorem isOk_sampleVariance (xs : List Number) :
    (Routine.sampleVariance xs).isOk = true ↔ 2 ≤ xs.length := by
  rw [Routine.sampleVariance, isOk_unless, not_lt]
  exact and_iff_left (isOk_ok _)

/-! ## Entries and their documentation -/

/-- Of as many finite numbers as the entry is registered for, its body gives an answer, and that
is a number exactly on the documented domain. -/
def Entry.Documented (e : Entry) : Prop :=
  ∀ xs : List Number, e.arity.accepts xs.length = true → (∀ x ∈ xs, x.isFinite = true) →
    ∃ a, e.routine.body.answer? xs = some a ∧
      (a.isOk = true ↔ InDomain e.name (xs.map Number.exact))

section Entries

variable {name description routine : String} {category : Category}

theorem documented_one {f : Number → Except Violation Number}
    (hf : ∀ x, x.isFinite = true → ((f x).isOk = true ↔ InDomain name [x.exact])) :
    Entry.Documented ⟨name, .exactly 1, category, description, ⟨routine, .one f⟩⟩ := by
  intro xs hcount hxs
  obtain ⟨x, rfl⟩ := List.length_eq_one_iff.mp (beq_iff_eq.mp hcount)
  exact ⟨f x, rfl, hf x (hxs x List.mem_cons_self)⟩

theorem documented_two {f : Number → Number → Except Violation Number}
    (hf : ∀ x y, x.isFinite = true → y.isFinite = true →
      ((f x y).isOk = true ↔ InDomain name [x.exact, y.exact])) :
    Entry.Documented ⟨name, .exactly 2, category, description, ⟨routine, .two f⟩⟩ := by
  intro xs hcount hxs
  obtain ⟨x, y, rfl⟩ := List.length_eq_two.mp (beq_iff_eq.mp hcount)
  exact ⟨f x y, rfl, hf x y (hxs x (by simp)) (hxs y (by simp))⟩

theorem documented_oneOrTwo {f : Number → Except Violation Number}
    {g : Number → Number → Except Violation Number}
    (hf : ∀ x, x.isFinite = true → ((f x).isOk = true ↔ InDomain name [x.exact]))
    (hg : ∀ x y, x.isFinite = true → y.isFinite = true →
      ((g x y).isOk = true ↔ InDomain name [x.exact, y.exact])) :
    Entry.Documented ⟨name, .between 1 2, category, description, ⟨routine, .oneOrTwo f g⟩⟩ := by
  intro xs hcount hxs
  have hcount : 1 ≤ xs.length ∧ xs.length ≤ 2 := by simpa [Arity.accepts] using hcount
  rcases (by omega : xs.length = 1 ∨ xs.length = 2) with h | h
  · obtain ⟨x, rfl⟩ := List.length_eq_one_iff.mp h
    exact ⟨f x, rfl, hf x (hxs x List.mem_cons_self)⟩
  · obtain ⟨x, y, rfl⟩ := List.length_eq_two.mp h
    exact ⟨g x y, rfl, hg x y (hxs x (by simp)) (hxs y (by simp))⟩

theorem documented_many {n : Nat} {f : List Number → Except Violation Number}
    (hf : ∀ xs, (f xs).isOk = true ↔ InDomain name (xs.map Number.exact)) :
    Entry.Documented ⟨name, .atLeast n, category, description, ⟨routine, .many f⟩⟩ :=
  fun xs _ _ => ⟨f xs, rfl, hf xs⟩

end Entries

theorem documented_trigonometric : ∀ e ∈ Registry.trigonometric, e.Documented := by
  have hall {f : Number → Number} : ∀ x, x.isFinite = true →
      ((Except.ok (f x) : Except Violation Number).isOk = true ↔ True) :=
    fun x _ => iff_of_true rfl trivial
  have hinverse {f : Number → Number} : ∀ x, x.isFinite = true →
      (((Routine.unitInterval x).map f).isOk = true ↔ -1 ≤ x.exact ∧ x.exact ≤ 1) := by
    intro x hx
    rw [isOk_map, isOk_unitInterval hx]
  simp only [Registry.trigonometric, List.forall_mem_cons]
  refine ⟨?sin, ?cos, ?tan, ?asin, ?acos, ?atan, List.forall_mem_nil _⟩
  case sin | cos | tan | atan => exact documented_one hall
  case asin | acos => exact documented_one hinverse

theorem documented_logarithmic : ∀ e ∈ Registry.logarithmic, e.Documented := by
  have hone {f : Number → Number} : ∀ x, x.isFinite = true →
      (((Routine.positive x).map f).isOk = true ↔ 0 < x.exact) := by
    intro x hx
    rw [isOk_map, isOk_positive hx]
  have htwo : ∀ x y, x.isFinite = true → y.isFinite = true →
      ((Routine.logarithm x y).isOk = true ↔ 0 < x.exact ∧ 0 < y.exact ∧ y.exact ≠ 1) :=
    fun x y hx hy => isOk_logarithm hx hy
  simp only [Registry.logarithmic, List.forall_mem_cons]
  refine ⟨?log, ?log10, ?ln, ?logn, List.forall_mem_nil _⟩
  case log => exact documented_oneOrTwo hone htwo
  case log10 | ln => exact documented_one hone
  case logn => exact documented_two htwo

theorem documented_exponential : ∀ e ∈ Registry.exponential, e.Documented := by
  simp only [Registry.exponential, List.forall_mem_cons]
  refine ⟨?exp, ?power, ?pow, ?sqrt, ?nthroot, List.forall_mem_nil _⟩
  case exp => exact documented_one fun x _ => iff_of_true rfl trivial
  case power | pow => exact documented_two fun x y hx hy => isOk_realPower hx hy
  case sqrt => exact documented_one fun x hx => isOk_realSquareRoot hx
  case nthroot => exact documented_two fun x y hx hy => isOk_realRoot hx hy

theorem documented_statistical : ∀ e ∈ Registry.statistical, e.Documented := by
  simp only [Registry.statistical, List.forall_mem_cons]
  refine ⟨?mean, ?median, ?mode, ?variance, ?stdev, List.forall_mem_nil _⟩
  case mean | median | mode => exact documented_many fun xs => iff_of_true rfl trivial
  case variance =>
    refine documented_many fun xs => ?_
    rw [isOk_sampleVariance, ← List.length_map (f := Number.exact)]
    rfl
  case stdev =>
    refine documented_many fun xs => ?_
    rw [isOk_map, isOk_sampleVariance, ← List.length_map (f := Number.exact)]
    rfl

theorem documented_of_mem_standard {e : Entry} (he : e ∈ Registry.standard.entries) :
    e.Documented := by
  rw [Registry.entries_standard] at he
  simp only [List.mem_append] at he
  rcases he with ((he | he) | he) | he
  · exact documented_trigonometric e he
  · exact documented_logarithmic e he
  · exact documented_exponential e he
  · exact documented_statistical e he

/-! ## Calls -/

section Calls

variable {e : Entry} {xs : List Number}

theorem Entry.call_of_not_accepts (hcount : e.arity.accepts xs.length = false) :
    e.call xs = .error (.arity e.name e.arity xs.length) := by
  rw [Entry.call, hcount]
  rfl

theorem Entry.call_of_error {violation : Violation} (hcount : e.arity.accepts xs.length = true)
    (ha : e.routine.body.answer? xs = some (.error violation)) :
    e.call xs = .error (.domain e.routine.name violation) := by
  rw [Entry.call, if_pos hcount, Routine.run, ha]
  rfl

/-- An answer that is not finite is refused, since the arguments are. -/
theorem Entry.call_of_ok {v : Number} (hcount : e.arity.accepts xs.length = true)
    (hxs : ∀ x ∈ xs, x.isFinite = true) (ha : e.routine.body.answer? xs = some (.ok v)) :
    e.call xs = if v.isFinite then .ok v else .error (.overflow e.name) := by
  have hrun : e.routine.run xs = .ok v := by
    rw [Routine.run, ha]
    rfl
  simp only [Entry.call, if_pos hcount, hrun, List.all_eq_true.mpr hxs, Bool.and_true]
  cases v.isFinite <;> rfl

theorem Entry.Documented.call_cases (he : e.Documented) (hxs : ∀ x ∈ xs, x.isFinite = true) :
    (e.arity.accepts xs.length = false ∧ e.call xs = .error (.arity e.name e.arity xs.length)) ∨
    (e.arity.accepts xs.length = true ∧ ¬InDomain e.name (xs.map Number.exact) ∧
      ∃ violation, e.call xs = .error (.domain e.routine.name violation)) ∨
    (e.arity.accepts xs.length = true ∧ InDomain e.name (xs.map Number.exact) ∧
      ((∃ v, e.call xs = .ok v ∧ v.isFinite = true) ∨ e.call xs = .error (.overflow e.name))) := by
  cases hcount : e.arity.accepts xs.length with
  | false => exact Or.inl ⟨rfl, Entry.call_of_not_accepts hcount⟩
  | true =>
      obtain ⟨a, ha, hdomain⟩ := he xs hcount hxs
      cases a with
      | error violation =>
          refine Or.inr (Or.inl ⟨rfl, ?_, violation, Entry.call_of_error hcount ha⟩)
          exact fun hin => Bool.false_ne_true (hdomain.mpr hin)
      | ok v =>
          refine Or.inr (Or.inr ⟨rfl, hdomain.mp rfl, ?_⟩)
          rw [Entry.call_of_ok hcount hxs ha]
          cases hv : v.isFinite with
          | true => exact Or.inl ⟨v, rfl, hv⟩
          | false => exact Or.inr rfl

/-- **Calls are classified.**  Let an entry of the standard registry be called with finite
numbers.  If their count is not one that it takes, the call fails for that, with the registered
counts and the one given, and for no other reason does a call fail so.  Otherwise it fails for the
domain exactly outside of the documented one, and inside it gives a finite number or an overflow.
The body takes every count that the entry does. -/
theorem call_classified (he : e ∈ Registry.standard.entries) (hxs : ∀ x ∈ xs, x.isFinite = true) :
    (∀ f expected given, e.call xs = .error (.arity f expected given) ↔
      e.arity.accepts xs.length = false ∧
        f = e.name ∧ expected = e.arity ∧ given = xs.length) ∧
    (e.arity.accepts xs.length = true →
      ((∃ f violation, e.call xs = .error (.domain f violation)) ↔
        ¬InDomain e.name (xs.map Number.exact)) ∧
      (InDomain e.name (xs.map Number.exact) →
        (∃ v, e.call xs = .ok v ∧ v.isFinite = true) ∨
          e.call xs = .error (.overflow e.name)) ∧
      (∃ a, e.routine.body.answer? xs = some a) ∧
      ∀ f expected given, e.routine.run xs ≠ .error (.arity f expected given)) := by
  have hdocumented := documented_of_mem_standard he
  have hcases := hdocumented.call_cases hxs
  refine ⟨fun f expected given => ?_, fun hcount => ⟨?_, fun hin => ?_, ?_, ?_⟩⟩
  · rcases hcases with ⟨hcount, hcall⟩ | ⟨hcount, -, v, hcall⟩ | ⟨hcount, -, ⟨v, hcall, -⟩ | hcall⟩
    · simp [hcall, hcount, eq_comm]
    · simp [hcall, hcount]
    · simp [hcall, hcount]
    · simp [hcall, hcount]
  · rcases hcases with ⟨hnot, -⟩ | ⟨-, hout, v, hcall⟩ | ⟨-, hin, ⟨v, hcall, -⟩ | hcall⟩
    · exact absurd hcount (by simp [hnot])
    · exact iff_of_true ⟨_, v, hcall⟩ hout
    · exact iff_of_false (by simp [hcall]) (not_not.mpr hin)
    · exact iff_of_false (by simp [hcall]) (not_not.mpr hin)
  · rcases hcases with ⟨hnot, -⟩ | ⟨-, hout, -⟩ | ⟨-, -, hvalue⟩
    · exact absurd hcount (by simp [hnot])
    · exact absurd hin hout
    · exact hvalue
  · obtain ⟨a, ha, -⟩ := hdocumented xs hcount hxs
    exact ⟨a, ha⟩
  · obtain ⟨a, ha, -⟩ := hdocumented xs hcount hxs
    intro f expected given
    rw [Routine.run, ha]
    cases a <;> simp [Except.mapError]

/-- A fourth root of a negative number is outside the domain; it is no matter of the count. -/
theorem call_classified_even_root :
    let nthroot : Entry := ⟨"nthroot", .exactly 2, .exponential,
      "n-th root of x (n > 0; odd n allows negative x)", Routine.nthroot⟩
    nthroot ∈ Registry.standard.entries ∧
      (∀ x ∈ [(-16.0 : Number), 4.0], x.isFinite = true) ∧
      ∃ f violation, nthroot.call [-16.0, 4.0] = .error (.domain f violation) := by
  intro nthroot
  have he : nthroot ∈ Registry.standard.entries := by
    rw [Registry.entries_standard]
    simp [nthroot, Registry.exponential]
  have hxs : ∀ x ∈ [(-16.0 : Number), 4.0], x.isFinite = true := by decide +kernel
  have hbase : Number.exact (-16.0) = -16 := by decide +kernel
  have hdegree : Number.exact 4.0 = 4 := by decide +kernel
  refine ⟨he, hxs, ((call_classified he hxs).2 rfl).1.mpr ?_⟩
  rintro ⟨-, hodd⟩
  obtain ⟨k, hk, h4⟩ := hodd (by rw [hbase]; norm_num)
  rw [hdegree] at h4
  obtain rfl : k = 4 := by exact_mod_cast h4.symm
  exact absurd hk (by decide)

end Calls

end Reckoner
