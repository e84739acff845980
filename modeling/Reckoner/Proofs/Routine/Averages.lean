/-
# `Reckoner.Proofs.Routine.Averages` — mean, median and mode

An average lies between the least and the greatest value, so it is always in range.
The way to it need not be: the mean goes through the sum of all values and the median
of an even count through the sum of two, and what has left the range does not come back
by a division.  `SumsInRange` says in exact arithmetic which lists have a sum;
`call_average` says that these are the lists that have a mean, what the same comes to
for the median, and that the mode is the one average that always exists.

The documentation has all three among the routines that never fail.  That holds of the
mean of one value, and of the median of an odd count.
-/
import Reckoner.Proofs.Number.Arithmetic
import Reckoner.Proofs.Routine.Median
import Reckoner.Proofs.Routine.Mode

namespace Reckoner

open Binary64 (overflowBound rounded largest)

/-! ## Sums -/

/-- Adding these numbers to `s` from left to right, with a rounding after every addition, does not
leave the range. -/
def SumsInRange : Rat → List Rat → Prop
  | _, [] => True
  | s, x :: xs => |s + x| < overflowBound ∧ SumsInRange (rounded (s + x)) xs

theorem isFinite_foldl_add_iff {xs : List Number} (hxs : ∀ x ∈ xs, x.isFinite = true)
    (s : Number) : (xs.foldl (· + ·) s).isFinite = true ↔
      s.isFinite = true ∧ SumsInRange s.exact (xs.map Number.exact) := by
  induction xs generalizing s with
  | nil => exact (and_iff_left trivial).symm
  | cons x xs ih =>
      obtain ⟨hx, hxs⟩ := List.forall_mem_cons.mp hxs
      rw [List.foldl_cons, ih hxs, List.map_cons, SumsInRange, ← and_assoc,
        ← Number.isFinite_add_iff hx]
      exact and_congr_right fun h => by rw [Number.exact_add hx h]

theorem isFinite_total_iff {xs : List Number} (hxs : ∀ x ∈ xs, x.isFinite = true) :
    (Routine.total xs).isFinite = true ↔ SumsInRange 0 (xs.map Number.exact) := by
  have hfinite : Number.isFinite (-0.0) = true := by decide
  have hexact : Number.exact (-0.0) = 0 := by decide
  rw [Routine.total, isFinite_foldl_add_iff hxs, hexact, and_iff_right hfinite]

theorem isFinite_average_iff {xs : List Number} (hne : xs ≠ [])
    (hxs : ∀ x ∈ xs, x.isFinite = true) :
    (Routine.average xs).isFinite = true ↔ SumsInRange 0 (xs.map Number.exact) := by
  rw [Routine.average, if_neg (by simpa using hne),
    Number.isFinite_div_ofNat _ (List.length_pos_iff.mpr hne), isFinite_total_iff hxs]

/-! ## The middle -/

/-- The two middle values of a list of even length have a sum. -/
def MiddleInRange (ys : List Number) : Prop :=
  Even ys.length → ∀ x y, ys[ys.length / 2 - 1]? = some x → ys[ys.length / 2]? = some y →
    |x.exact + y.exact| < overflowBound

theorem isFinite_half_iff {x y : Number} (hx : x.isFinite = true) (hy : y.isFinite = true) :
    ((x + y) / 2.0).isFinite = true ↔ |x.exact + y.exact| < overflowBound := by
  have htwo : (2.0 : Number) = .ofNat 2 := by decide
  rw [htwo, Number.isFinite_div_ofNat _ two_pos, Number.isFinite_add_iff hy, and_iff_right hx]

theorem isFinite_middle_iff {xs : List Number} (hne : xs ≠ [])
    (hxs : ∀ x ∈ xs, x.isFinite = true) :
    (Routine.middle xs).isFinite = true ↔ MiddleInRange (Routine.sorted xs) := by
  have hfinite : ∀ {i : Nat} {x : Number}, (Routine.sorted xs)[i]? = some x →
      x.isFinite = true := fun h => hxs _ (mem_sorted.mp (List.mem_of_getElem? h))
  rw [MiddleInRange, length_sorted]
  rcases Nat.even_or_odd xs.length with heven | hodd
  · obtain ⟨p, q, hp, hq, hmiddle⟩ := middle_of_even hne heven
    rw [hmiddle, isFinite_half_iff (hfinite hp) (hfinite hq), hp, hq]
    constructor
    · intro h _ x y hx hy
      obtain rfl := Option.some.inj hx
      obtain rfl := Option.some.inj hy
      exact h
    · intro h
      exact h heven p q rfl rfl
  · exact iff_of_true (hfinite (middle_of_odd hodd)) fun heven =>
      absurd heven (Nat.not_even_iff_odd.mpr hodd)

/-! ## Calls -/

/-- The values have an average in the range of doubles, by the way the routine goes to it. -/
def AverageInRange : String → List Number → Prop
  | "mean", xs => SumsInRange 0 (xs.map Number.exact)
  | "median", xs => MiddleInRange (Routine.sorted xs)
  | _, _ => True

/-- The counts of values for which the way to the average never leaves the range. -/
def SafeCount : String → Nat → Prop
  | "mean", n => n = 1
  | "median", n => Odd n
  | _, n => 0 < n

theorem exists_average {name : String} (hname : name ∈ ["mean", "median", "mode"]) {e : Entry}
    (he : Registry.standard.get? name = some e) :
    e.name = name ∧ e.arity = .atLeast 1 ∧ ∃ f : List Number → Number,
      e.routine.body = .many (fun xs => .ok (f xs)) ∧
      ∀ xs, xs ≠ [] → (∀ x ∈ xs, x.isFinite = true) →
        ((f xs).isFinite = true ↔ AverageInRange name xs) := by
  rw [Registry.get?_standard] at he
  simp only [List.mem_cons, List.not_mem_nil, or_false] at hname
  rcases hname with rfl | rfl | rfl
  case inl =>
    obtain rfl : (⟨_, _, _, _, Routine.mean⟩ : Entry) = e := by
      refine Option.some.inj (Eq.trans ?_ he)
      with_unfolding_all rfl
    exact ⟨rfl, rfl, Routine.average, rfl, fun _ => isFinite_average_iff⟩
  case inr.inl =>
    obtain rfl : (⟨_, _, _, _, Routine.median⟩ : Entry) = e := by
      refine Option.some.inj (Eq.trans ?_ he)
      with_unfolding_all rfl
    exact ⟨rfl, rfl, Routine.middle, rfl, fun _ => isFinite_middle_iff⟩
  case inr.inr =>
    obtain rfl : (⟨_, _, _, _, Routine.mode⟩ : Entry) = e := by
      refine Option.some.inj (Eq.trans ?_ he)
      with_unfolding_all rfl
    exact ⟨rfl, rfl, Routine.mostFrequent, rfl, fun xs hne hxs =>
      iff_of_true (hxs _ (mostFrequent_mem hne)) trivial⟩

/-! ## Counts of values -/

def Number.largestFinite : Number := .ofFloat Binary64.greatest

theorem Number.isFinite_largestFinite : Number.largestFinite.isFinite = true :=
  Binary64.isFinite_greatest

theorem Number.exact_largestFinite : Number.largestFinite.exact = largest :=
  Binary64.toRat_greatest

theorem not_largest_add_largest_lt : ¬|largest + largest| < overflowBound := by
  have hpos := Binary64.topHalf_pos
  rw [abs_of_pos (add_pos Binary64.largest_pos Binary64.largest_pos), Binary64.largest_eq,
    Binary64.overflowBound_eq]
  intro h
  linarith

theorem not_sumsInRange_replicate (n : Nat) :
    ¬SumsInRange 0 ((List.replicate (n + 2) Number.largestFinite).map Number.exact) := by
  rw [List.map_replicate, Number.exact_largestFinite]
  rintro ⟨-, hsecond, -⟩
  rw [zero_add, Binary64.rounded_of_representable Binary64.representable_largest] at hsecond
  exact not_largest_add_largest_lt hsecond

theorem sorted_replicate (n : Nat) (x : Number) :
    Routine.sorted (List.replicate n x) = List.replicate n x :=
  List.replicate_perm.mp (List.mergeSort_perm _ _).symm |>.symm

theorem not_middleInRange_replicate {n : Nat} (hn : 0 < n) (heven : Even n) :
    ¬MiddleInRange (Routine.sorted (List.replicate n Number.largestFinite)) := by
  rw [sorted_replicate]
  intro h
  rw [MiddleInRange, List.length_replicate] at h
  have hsum := h heven _ _ (List.getElem?_replicate_of_lt (by omega))
    (List.getElem?_replicate_of_lt (by omega))
  rw [Number.exact_largestFinite] at hsum
  exact not_largest_add_largest_lt hsum

/-- Which counts of values are safe, whatever the values. -/
theorem averageInRange_iff_safeCount {name : String} (hname : name ∈ ["mean", "median", "mode"])
    {n : Nat} (hn : 0 < n) :
    (∀ xs : List Number, xs.length = n → (∀ x ∈ xs, x.isFinite = true) → AverageInRange name xs) ↔
      SafeCount name n := by
  have hreplicate : ∀ x ∈ List.replicate n Number.largestFinite, x.isFinite = true := fun x hx =>
    List.eq_of_mem_replicate hx ▸ Number.isFinite_largestFinite
  simp only [List.mem_cons, List.not_mem_nil, or_false] at hname
  rcases hname with rfl | rfl | rfl
  case inl =>
    constructor
    · intro h
      show n = 1
      by_contra hne
      obtain ⟨k, rfl⟩ : ∃ k, n = k + 2 := ⟨n - 2, by omega⟩
      exact not_sumsInRange_replicate k (h _ List.length_replicate hreplicate)
    · rintro hone xs hlength hxs
      obtain ⟨x, rfl⟩ := List.length_eq_one_iff.mp (hlength.trans hone)
      have hx := hxs x List.mem_cons_self
      show |0 + x.exact| < overflowBound ∧ True
      rw [zero_add]
      exact ⟨(Binary64.nearest_self hx).isFinite_iff.mp hx, trivial⟩
  case inr.inl =>
    constructor
    · intro h
      show Odd n
      by_contra hodd
      exact not_middleInRange_replicate hn (Nat.not_odd_iff_even.mp hodd)
        (h _ List.length_replicate hreplicate)
    · intro hodd xs hlength _ heven
      rw [length_sorted, hlength] at heven
      exact absurd heven (Nat.not_even_iff_odd.mpr hodd)
  case inr.inr => exact iff_of_true (fun _ _ _ => trivial) hn

/-- **When an average fails.**  Called with finite numbers, at least one, mean, median and mode
give a finite number if the way to it stays in range, and report an overflow otherwise.  The mode
never fails.  One value always has a mean and an odd number of values a median; with any other
number of values some lists have none. -/
theorem call_average {name : String} (hname : name ∈ ["mean", "median", "mode"]) {e : Entry}
    (he : Registry.standard.get? name = some e) :
    (∀ xs : List Number, xs ≠ [] → (∀ x ∈ xs, x.isFinite = true) →
      (AverageInRange name xs → ∃ v, e.call xs = .ok v ∧ v.isFinite = true) ∧
      (¬AverageInRange name xs → e.call xs = .error (.overflow name))) ∧
    ∀ n, 0 < n →
      ((∀ xs : List Number, xs.length = n → (∀ x ∈ xs, x.isFinite = true) →
        ∃ v, e.call xs = .ok v ∧ v.isFinite = true) ↔ SafeCount name n) := by
  obtain ⟨hself, harity, f, hbody, hfinite⟩ := exists_average hname he
  have hcall : ∀ xs : List Number, xs ≠ [] → (∀ x ∈ xs, x.isFinite = true) →
      (AverageInRange name xs → ∃ v, e.call xs = .ok v ∧ v.isFinite = true) ∧
      (¬AverageInRange name xs → e.call xs = .error (.overflow name)) := by
    intro xs hne hxs
    have hcount : e.arity.accepts xs.length = true := by
      rw [harity]
      exact decide_eq_true (List.length_pos_iff.mpr hne)
    have hanswer : e.routine.body.answer? xs = some (.ok (f xs)) := by
      rw [hbody]
      rfl
    rw [Entry.call_of_ok hcount hxs hanswer, ← hfinite xs hne hxs, hself]
    exact ⟨fun h => ⟨f xs, if_pos h, h⟩, fun h => if_neg h⟩
  refine ⟨hcall, fun n hn => ?_⟩
  rw [← averageInRange_iff_safeCount hname hn]
  refine forall_congr' fun xs => forall_congr' fun hlength => forall_congr' fun hxs => ?_
  obtain ⟨hin, hout⟩ := hcall xs (List.length_pos_iff.mp (hlength ▸ hn)) hxs
  refine ⟨?_, hin⟩
  rintro ⟨v, hv, -⟩
  by_contra h
  exact nomatch hv.symm.trans (hout h)

/-- The largest number and itself have no median. -/
theorem call_average_largest : ∃ e, "median" ∈ ["mean", "median", "mode"] ∧
    Registry.standard.get? "median" = some e ∧
    e.call [Number.largestFinite, Number.largestFinite] = .error (.overflow "median") := by
  have hname : "median" ∈ ["mean", "median", "mode"] := by decide
  obtain ⟨e, he⟩ : ∃ e, Registry.standard.get? "median" = some e :=
    ⟨_, Registry.get?_standard_of_find? _ rfl⟩
  refine ⟨e, hname, he, ((call_average hname he).1 _ (List.cons_ne_nil _ _) ?_).2 ?_⟩
  · exact fun x hx => List.eq_of_mem_replicate (n := 2) hx ▸ Number.isFinite_largestFinite
  · exact not_middleInRange_replicate two_pos even_two

/-- Averages do fail, the mean at the largest number and itself. -/
theorem averages_not_total :
    ¬∀ name ∈ ["mean", "median", "mode"], ∀ xs : List Number, xs ≠ [] →
      (∀ x ∈ xs, x.isFinite = true) →
      ∃ e v, Registry.standard.get? name = some e ∧ e.call xs = .ok v ∧ v.isFinite = true := by
  intro h
  obtain ⟨e, v, he, hcall, -⟩ := h "mean" (by decide) [Number.largestFinite, Number.largestFinite]
    (List.cons_ne_nil _ _)
    fun x hx => List.eq_of_mem_replicate (n := 2) hx ▸ Number.isFinite_largestFinite
  rw [Registry.get?_standard] at he
  obtain rfl : (⟨_, _, _, _, Routine.mean⟩ : Entry) = e := by
    refine Option.some.inj (Eq.trans ?_ he)
    with_unfolding_all rfl
  have hoverflow : Entry.call ⟨"mean", .atLeast 1, .statistical, "Arithmetic mean of values",
      Routine.mean⟩ [Number.largestFinite, Number.largestFinite] = .error (.overflow "mean") := by
    decide +kernel
  exact nomatch hcall.symm.trans hoverflow

end Reckoner
