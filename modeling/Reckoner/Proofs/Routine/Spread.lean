/-
# `Reckoner.Proofs.Routine.Spread` — variance and standard deviation go together

The variance is built from a mean that may itself have left the range, and then nothing is
certain about the distances from it.  But a square has no sign, whatever is squared, and adding
up what has no sign never makes one: a running sum is negative zero, before the first square, or
has no minus (`unsigned_foldl_add`).  So the root of the variance is finite exactly where the
variance is, and the two calls fail at the same checks or at none (`spreads_agree`).
-/
import Reckoner.Proofs.Binary64.SquareRoot
import Reckoner.Proofs.Number.Arithmetic

namespace Reckoner

/-! ## Sums of squares -/

theorem unsigned_foldl_add {xs : List Number} (hxs : ∀ x ∈ xs, x.Unsigned) {s : Number}
    (hs : s.Unsigned) : (xs.foldl (· + ·) s).Unsigned := by
  induction xs generalizing s with
  | nil => exact hs
  | cons x xs ih =>
      obtain ⟨hx, hxs⟩ := List.forall_mem_cons.mp hxs
      exact ih hxs (Number.unsigned_add (Or.inl hs) hx)

theorem unsigned_total {xs : List Number} (hne : xs ≠ []) (hxs : ∀ x ∈ xs, x.Unsigned) :
    (Routine.total xs).Unsigned := by
  obtain ⟨x, xs, rfl⟩ := List.exists_cons_of_ne_nil hne
  obtain ⟨hx, hxs⟩ := List.forall_mem_cons.mp hxs
  exact unsigned_foldl_add hxs (Number.unsigned_add (Or.inr rfl) hx)

theorem exists_sampleVariance {xs : List Number} (hxs : 2 ≤ xs.length) :
    ∃ v : Number, Routine.sampleVariance xs = .ok v ∧ v.Unsigned := by
  refine ⟨_, if_neg (not_lt.mpr hxs), ?_⟩
  refine Number.Unsigned.div_ofNat (unsigned_total ?_ ?_) _
  · rw [ne_eq, List.map_eq_nil_iff]
    rintro rfl
    exact absurd hxs (by decide)
  · intro x hx
    obtain ⟨y, -, rfl⟩ := List.mem_map.mp hx
    exact Number.unsigned_mul_self _

/-! ## Roots -/

/-- `w` is the double nearest to the real square root of `v`. -/
def Number.IsRoot (v w : Number) : Prop :=
  w.isFinite = true ∧ ∀ y : Float, y.isFinite = true →
    |√(v.exact : ℝ) - w.exact| ≤ |√(v.exact : ℝ) - Binary64.toRat y|

section Unsigned

variable {v : Number} (hv : v.Unsigned)

include hv

theorem Number.Unsigned.isFinite_sqrt : (v.map Float.sqrt).isFinite = v.isFinite := by
  rw [Number.isFinite, Number.toFloat_map]
  exact Binary64.isFinite_sqrt hv

theorem Number.Unsigned.isRoot_sqrt (hfinite : v.isFinite = true) :
    v.IsRoot (v.map Float.sqrt) := by
  refine ⟨hv.isFinite_sqrt.trans hfinite, fun y hy => ?_⟩
  rw [Number.exact, Number.exact, Number.toFloat_map]
  exact Binary64.abs_sqrt_sub_le hv hfinite hy

theorem Number.Unsigned.exact_nonneg : 0 ≤ v.exact := Binary64.toRat_nonneg_of_unsigned hv

theorem Number.Unsigned.ne_negative_zero : v ≠ -0.0 := by
  rintro rfl
  have hparts : Binary64.parts (Number.toFloat (-0.0)) = .zero .negative := by
    with_unfolding_all rfl
  rw [Number.Unsigned, hparts, Binary64.unsigned_zero] at hv
  cases hv

end Unsigned

/-! ## Calls -/

/-- **Variance and standard deviation.**  Without values both calls fail for the count, with one
value both for the domain.  With two or more finite values either both overflow, or the variance
is a finite number that is not negative, nor negative zero, and the standard deviation is its
square root. -/
theorem spreads_agree {variance stdev : Entry}
    (hvariance : Registry.standard.get? "variance" = some variance)
    (hstdev : Registry.standard.get? "stdev" = some stdev) :
    (variance.call [] = .error (.arity "variance" (.atLeast 1) 0) ∧
      stdev.call [] = .error (.arity "stdev" (.atLeast 1) 0)) ∧
    (∀ x, variance.call [x] = .error (.domain "variance" (.tooFewValues 1)) ∧
      stdev.call [x] = .error (.domain "stdev" (.tooFewValues 1))) ∧
    ∀ xs : List Number, 2 ≤ xs.length → (∀ x ∈ xs, x.isFinite = true) →
      (∃ v, variance.call xs = .ok v ∧ stdev.call xs = .ok (v.map Float.sqrt) ∧
        v.isFinite = true ∧ v.isNaN = false ∧ 0 ≤ v.exact ∧ v ≠ -0.0 ∧
        v.IsRoot (v.map Float.sqrt)) ∨
      (variance.call xs = .error (.overflow "variance") ∧
        stdev.call xs = .error (.overflow "stdev")) := by
  rw [Registry.get?_standard] at hvariance hstdev
  obtain rfl : (⟨_, _, _, _, Routine.variance⟩ : Entry) = variance := by
    refine Option.some.inj (Eq.trans ?_ hvariance)
    with_unfolding_all rfl
  obtain rfl : (⟨_, _, _, _, Routine.stdev⟩ : Entry) = stdev := by
    refine Option.some.inj (Eq.trans ?_ hstdev)
    with_unfolding_all rfl
  refine ⟨⟨rfl, rfl⟩, fun x => ⟨rfl, rfl⟩, fun xs hlength hxs => ?_⟩
  obtain ⟨v, hv, hunsigned⟩ := exists_sampleVariance hlength
  have hcount : Arity.accepts (.atLeast 1) xs.length = true := decide_eq_true (by omega)
  have hanswer : Routine.variance.body.answer? xs = some (.ok v) := congrArg some hv
  have hroot : Routine.stdev.body.answer? xs = some (.ok (v.map Float.sqrt)) := by
    show some ((Routine.sampleVariance xs).map (Number.map Float.sqrt)) = _
    rw [hv]
    rfl
  rw [Entry.call_of_ok (e := ⟨_, _, _, _, Routine.variance⟩) hcount hxs hanswer,
    Entry.call_of_ok (e := ⟨_, _, _, _, Routine.stdev⟩) hcount hxs hroot, hunsigned.isFinite_sqrt]
  cases hfinite : v.isFinite with
  | false => exact Or.inr ⟨rfl, rfl⟩
  | true =>
      exact Or.inl ⟨v, rfl, rfl, hfinite, isNaN_eq_false_of_isFinite hfinite,
        hunsigned.exact_nonneg, hunsigned.ne_negative_zero, hunsigned.isRoot_sqrt hfinite⟩

/-- Both spreads have a value, or both are lost with the mean. -/
theorem spreads_agree_lost_mean : ∃ variance stdev,
    Registry.standard.get? "variance" = some variance ∧
    Registry.standard.get? "stdev" = some stdev ∧
    (variance.call [1.0, 3.0, 5.0] = .ok 4.0 ∧ stdev.call [1.0, 3.0, 5.0] = .ok 2.0) ∧
    variance.call [1.0e308, 1.0e308] = .error (.overflow "variance") ∧
    stdev.call [1.0e308, 1.0e308] = .error (.overflow "stdev") := by
  obtain ⟨variance, hvariance⟩ : ∃ e, Registry.standard.get? "variance" = some e :=
    ⟨_, Registry.get?_standard_of_find? _ rfl⟩
  obtain ⟨stdev, hstdev⟩ : ∃ e, Registry.standard.get? "stdev" = some e :=
    ⟨_, Registry.get?_standard_of_find? _ rfl⟩
  have hagree := (spreads_agree hvariance hstdev).2.2
  obtain rfl : (⟨"variance", .atLeast 1, .statistical,
      "Sample variance (requires at least two values)", Routine.variance⟩ : Entry) = variance := by
    rw [Registry.get?_standard] at hvariance
    refine Option.some.inj (Eq.trans ?_ hvariance)
    with_unfolding_all rfl
  refine ⟨_, stdev, hvariance, hstdev, ?_, ?_⟩
  · have hvalue : Entry.call ⟨"variance", .atLeast 1, .statistical,
        "Sample variance (requires at least two values)", Routine.variance⟩ [1.0, 3.0, 5.0] =
          .ok 4.0 := by
      decide +kernel
    rcases hagree [1.0, 3.0, 5.0] (by decide) (by decide +kernel)
      with ⟨v, hv, hroot, -⟩ | ⟨hlost, -⟩
    · obtain rfl := Except.ok.inj (hvalue.symm.trans hv)
      have htwo : (4.0 : Number).map Float.sqrt = 2.0 := by decide +kernel
      exact ⟨hv, hroot.trans (congrArg Except.ok htwo)⟩
    · exact nomatch hvalue.symm.trans hlost
  · have hoverflow : Entry.call ⟨"variance", .atLeast 1, .statistical,
        "Sample variance (requires at least two values)", Routine.variance⟩ [1.0e308, 1.0e308] =
          .error (.overflow "variance") := by
      decide +kernel
    refine (hagree [1.0e308, 1.0e308] (by decide) (by decide +kernel)).resolve_left ?_
    rintro ⟨v, hcall, -⟩
    exact nomatch hcall.symm.trans hoverflow

end Reckoner
