/-
# `Reckoner.Proofs.Routine.Median` — the middle of the total order

The total order of numbers is one of bit patterns, and no two numbers share a pattern
(`Number.orderKey_injective`).  So a list has one sorted arrangement, the same for all its
permutations, and the value at a place of it has a *rank* that says nothing of sorting:
how many values are below it and how many above (`HasRank`).  The median is the value of
the middle rank, or half the sum of the values of the two middle ranks.
-/
import Reckoner.Proofs.Binary64.Canonical
import Reckoner.Proofs.Routine.Registration

namespace Reckoner

open Float.Model (UnpackedFloat)
open Float.Model.UnpackedFloat

/-! ## The total order -/

namespace Binary64

theorem toBits_injective {x y : Float} (h : x.toBits = y.toBits) : x = y := by
  refine parts_injective ?_
  show unpack .binary64 x.toBits.toBitVec = unpack .binary64 y.toBits.toBitVec
  rw [h]

theorem toNat_toBits_ne (x : Float) : x.toBits.toNat ≠ 0xFFF8000000000000 := by
  intro h
  have h : x.toBits = 0xFFF8000000000000 := UInt64.toNat_inj.mp h
  have hparts : parts x = .notANumber := by
    show unpack .binary64 x.toBits.toBitVec = .notANumber
    rw [h]
    rfl
  rw [← pack_parts x, hparts] at h
  exact absurd h (by decide)

end Binary64

namespace Number

theorem bits_lt (x : Number) : x.bits < 2 ^ 64 := by
  cases x with
  | ofFloat x => exact x.toBits.toNat_lt
  | negativeNaN => decide

theorem bits_injective {x y : Number} (h : x.bits = y.bits) : x = y := by
  cases x with
  | ofFloat x =>
      cases y with
      | ofFloat y => exact congrArg ofFloat (Binary64.toBits_injective (UInt64.toNat_inj.mp h))
      | negativeNaN => exact absurd h (Binary64.toNat_toBits_ne x)
  | negativeNaN =>
      cases y with
      | ofFloat y => exact absurd h.symm (Binary64.toNat_toBits_ne y)
      | negativeNaN => rfl

theorem orderKey_injective {x y : Number} (h : x.orderKey = y.orderKey) : x = y := by
  have hx := x.bits_lt
  have hy := y.bits_lt
  have hpow : Nat.pow 2 63 = 9223372036854775808 := rfl
  refine bits_injective ?_
  simp only [orderKey, hpow] at h
  split_ifs at h <;> omega

end Number

/-! ## Sorting -/

theorem mem_sorted {xs : List Number} {x : Number} : x ∈ Routine.sorted xs ↔ x ∈ xs :=
  (List.mergeSort_perm xs _).mem_iff

theorem length_sorted (xs : List Number) : (Routine.sorted xs).length = xs.length :=
  List.length_mergeSort xs

theorem pairwise_sorted (xs : List Number) :
    (Routine.sorted xs).Pairwise fun x y => x.orderKey ≤ y.orderKey := by
  have htrans : ∀ x y z : Number, decide (x.orderKey ≤ y.orderKey) = true →
      decide (y.orderKey ≤ z.orderKey) = true → decide (x.orderKey ≤ z.orderKey) = true := by
    intro x y z hxy hyz
    exact decide_eq_true ((of_decide_eq_true hxy).trans (of_decide_eq_true hyz))
  have htotal : ∀ x y : Number,
      (decide (x.orderKey ≤ y.orderKey) || decide (y.orderKey ≤ x.orderKey)) = true := by
    intro x y
    simpa using le_total x.orderKey y.orderKey
  exact (List.pairwise_mergeSort htrans htotal xs).imp of_decide_eq_true

theorem sorted_eq_of_perm {xs ys : List Number} (h : xs.Perm ys) :
    Routine.sorted xs = Routine.sorted ys := by
  have hperm : (Routine.sorted xs).Perm (Routine.sorted ys) :=
    (List.mergeSort_perm xs _).trans (h.trans (List.mergeSort_perm ys _).symm)
  exact hperm.eq_of_pairwise (fun x y _ _ hxy hyx => Number.orderKey_injective (hxy.antisymm hyx))
    (pairwise_sorted xs) (pairwise_sorted ys)

/-! ## Ranks -/

/-- `x` has the `k`-th place among values in the total order, counted from one: fewer than `k`
values are below it, and no more than all but `k` above it. -/
structure HasRank (xs : List Number) (k : Nat) (x : Number) : Prop where
  mem : x ∈ xs
  below : xs.countP (fun y => y.orderKey < x.orderKey) < k
  above : xs.countP (fun y => x.orderKey < y.orderKey) + k ≤ xs.length

theorem HasRank.of_perm {xs ys : List Number} (h : xs.Perm ys) {k : Nat} {x : Number}
    (hx : HasRank xs k x) : HasRank ys k x where
  mem := h.mem_iff.mp hx.mem
  below := h.countP_eq _ ▸ hx.below
  above := h.countP_eq _ ▸ h.length_eq ▸ hx.above

theorem HasRank.orderKey_le {xs : List Number} {k : Nat} {x y : Number} (hx : HasRank xs k x)
    (hy : HasRank xs k y) : x.orderKey ≤ y.orderKey := by
  by_contra hlt
  have hlt := not_le.mp hlt
  -- what is not above `y` is below `x`
  have hmono : xs.countP (fun z => ¬decide (y.orderKey < z.orderKey) = true) ≤
      xs.countP (fun z => z.orderKey < x.orderKey) := by
    refine List.countP_mono_left fun z _ hz => ?_
    simp only [decide_eq_true_eq, not_lt] at hz
    exact decide_eq_true (hz.trans_lt hlt)
  have hsplit := xs.length_eq_countP_add_countP fun z => decide (y.orderKey < z.orderKey)
  have hbelow := hx.below
  have habove := hy.above
  omega

theorem HasRank.unique {xs : List Number} {k : Nat} {x y : Number} (hx : HasRank xs k x)
    (hy : HasRank xs k y) : x = y :=
  Number.orderKey_injective ((hx.orderKey_le hy).antisymm (hy.orderKey_le hx))

/-- In a sorted list the rank of a value is its place. -/
theorem hasRank_of_sorted {before after : List Number} {x : Number}
    (h : (before ++ x :: after).Pairwise fun x y => x.orderKey ≤ y.orderKey) :
    HasRank (before ++ x :: after) (before.length + 1) x := by
  obtain ⟨-, hafter, hbefore⟩ := List.pairwise_append.mp h
  have hnoneBelow : (x :: after).countP (fun y => y.orderKey < x.orderKey) = 0 := by
    refine List.countP_eq_zero.mpr fun y hy => ?_
    rw [decide_eq_true_eq, not_lt]
    rcases List.mem_cons.mp hy with rfl | hy
    · exact le_rfl
    · exact (List.pairwise_cons.mp hafter).1 y hy
  have hnoneAbove : (before ++ [x]).countP (fun y => x.orderKey < y.orderKey) = 0 := by
    refine List.countP_eq_zero.mpr fun y hy => ?_
    rw [decide_eq_true_eq, not_lt]
    rcases List.mem_append.mp hy with hy | hy
    · exact hbefore y hy x List.mem_cons_self
    · exact (congrArg Number.orderKey (List.mem_singleton.mp hy)).le
  have hsplit : before ++ x :: after = (before ++ [x]) ++ after := by simp
  refine ⟨List.mem_append_right _ List.mem_cons_self, ?_, ?_⟩
  · rw [List.countP_append, hnoneBelow, Nat.add_zero]
    exact Nat.lt_succ_of_le List.countP_le_length
  · rw [hsplit, List.countP_append, hnoneAbove, List.length_append, List.length_append,
      List.length_singleton]
    have := List.countP_le_length (p := fun y => decide (x.orderKey < y.orderKey)) (l := after)
    omega

theorem hasRank_of_getElem? {xs : List Number} {i : Nat} {x : Number}
    (h : (Routine.sorted xs)[i]? = some x) : HasRank xs (i + 1) x := by
  obtain ⟨hi, rfl⟩ := List.getElem?_eq_some_iff.mp h
  have hsplit : Routine.sorted xs = (Routine.sorted xs).take i ++
      (Routine.sorted xs)[i] :: (Routine.sorted xs).drop (i + 1) := by
    rw [← List.drop_eq_getElem_cons hi, List.take_append_drop]
  have hrank := hasRank_of_sorted (hsplit ▸ pairwise_sorted xs)
  rw [List.length_take_of_le hi.le, ← hsplit] at hrank
  exact hrank.of_perm (List.mergeSort_perm xs _)

/-! ## The middle -/

theorem middle_of_odd {xs : List Number} (h : Odd xs.length) :
    (Routine.sorted xs)[xs.length / 2]? = some (Routine.middle xs) := by
  have hodd : xs.length % 2 ≠ 0 := by
    rw [Nat.odd_iff.mp h]
    exact one_ne_zero
  have hlt : xs.length / 2 < (Routine.sorted xs).length := by
    rw [length_sorted]
    have := h.pos
    omega
  simp only [Routine.middle, length_sorted, if_neg hodd]
  rw [List.getD_eq_getElem _ _ hlt, List.getElem?_eq_getElem hlt]

theorem middle_of_even {xs : List Number} (hne : xs ≠ []) (h : Even xs.length) :
    ∃ p q, (Routine.sorted xs)[xs.length / 2 - 1]? = some p ∧
      (Routine.sorted xs)[xs.length / 2]? = some q ∧ Routine.middle xs = (p + q) / 2.0 := by
  have hpos := List.length_pos_iff.mpr hne
  have heven := Nat.even_iff.mp h
  have hhigh : xs.length / 2 < (Routine.sorted xs).length := by
    rw [length_sorted]
    omega
  have hlow : xs.length / 2 - 1 < (Routine.sorted xs).length := by omega
  have hnext : xs.length / 2 - 1 + 1 = xs.length / 2 := by omega
  refine ⟨_, _, List.getElem?_eq_getElem hlow, List.getElem?_eq_getElem hhigh, ?_⟩
  have hdrop : (Routine.sorted xs).drop (xs.length / 2 - 1) =
      (Routine.sorted xs)[xs.length / 2 - 1] :: (Routine.sorted xs)[xs.length / 2] ::
        (Routine.sorted xs).drop (xs.length / 2 + 1) := by
    rw [List.drop_eq_getElem_cons hlow, hnext, List.drop_eq_getElem_cons hhigh]
  simp only [Routine.middle, length_sorted, if_pos heven, hdrop]

/-! ## Calls -/

/-- An entry whose routine does not depend on the order of its arguments does not either. -/
theorem Entry.call_of_perm {e : Entry} {xs ys : List Number} (h : xs.Perm ys)
    (hrun : e.routine.run ys = e.routine.run xs) : e.call ys = e.call xs := by
  rw [Entry.call, Entry.call, hrun, h.length_eq, h.all_eq]

/-- The middle rank, by the number of values on either side. -/
theorem hasRank_middle_iff {xs : List Number} (h : Odd xs.length) {x : Number} :
    HasRank xs (xs.length / 2 + 1) x ↔ x ∈ xs ∧
      xs.countP (fun y => y.orderKey < x.orderKey) ≤ (xs.length - 1) / 2 ∧
      xs.countP (fun y => x.orderKey < y.orderKey) ≤ (xs.length - 1) / 2 := by
  have hodd := Nat.odd_iff.mp h
  constructor
  · rintro ⟨hmem, hbelow, habove⟩
    exact ⟨hmem, by omega, by omega⟩
  · rintro ⟨hmem, hbelow, habove⟩
    exact ⟨hmem, by omega, by omega⟩

theorem HasRank.eq_iff {xs : List Number} {k : Nat} {x : Number} (hx : HasRank xs k x)
    (y : Number) : y = x ↔ HasRank xs k y :=
  ⟨fun h => h ▸ hx, fun hy => hy.unique hx⟩

/-- **The median is the middle of the total order.**  It is the same for every order of the values,
also in a call with the checks of the entry.  Of an odd number of values it is the one that has no
more than half of the others below it and no more than half above; of an even number it is half the
sum of the values of the two middle ranks. -/
theorem median_is_middle {xs : List Number} (hne : xs ≠ []) :
    (∀ ys, xs.Perm ys → Routine.median.run ys = Routine.median.run xs ∧
      ∃ e, Registry.standard.get? "median" = some e ∧ e.call ys = e.call xs) ∧
    (Odd xs.length → ∃ v, Routine.median.run xs = .ok v ∧
      ∀ x, x = v ↔ x ∈ xs ∧
        xs.countP (fun y => y.orderKey < x.orderKey) ≤ (xs.length - 1) / 2 ∧
        xs.countP (fun y => x.orderKey < y.orderKey) ≤ (xs.length - 1) / 2) ∧
    (Even xs.length → ∃ p q, Routine.median.run xs = .ok ((p + q) / 2.0) ∧
      (∀ x, x = p ↔ HasRank xs (xs.length / 2) x) ∧
      ∀ x, x = q ↔ HasRank xs (xs.length / 2 + 1) x) := by
  have hrun : ∀ ys, Routine.median.run ys = .ok (Routine.middle ys) := fun _ => rfl
  refine ⟨?_, ?_, ?_⟩
  · intro ys h
    have hsame : Routine.median.run ys = Routine.median.run xs := by
      rw [hrun, hrun, Routine.middle, Routine.middle, sorted_eq_of_perm h]
    obtain ⟨e, he, hroutine⟩ : ∃ e, Registry.standard.get? "median" = some e ∧
        e.routine = Routine.median := ⟨_, Registry.get?_standard_of_find? _ rfl, rfl⟩
    exact ⟨hsame, e, he, Entry.call_of_perm h (hroutine ▸ hsame)⟩
  · intro hodd
    refine ⟨_, hrun xs, fun x => ?_⟩
    rw [← hasRank_middle_iff hodd]
    exact (hasRank_of_getElem? (middle_of_odd hodd)).eq_iff x
  · intro heven
    obtain ⟨p, q, hp, hq, hmiddle⟩ := middle_of_even hne heven
    have hhalf : xs.length / 2 - 1 + 1 = xs.length / 2 := by
      have := List.length_pos_iff.mpr hne
      have := Nat.even_iff.mp heven
      omega
    refine ⟨p, q, by rw [hrun, hmiddle], ?_, ?_⟩
    · exact (hhalf ▸ hasRank_of_getElem? hp).eq_iff
    · exact (hasRank_of_getElem? hq).eq_iff

/-- Two zeros in the middle of four values, in two orders: the negative one is below the other. -/
theorem median_is_middle_zeros :
    ([2.0, 0.0, .negativeNaN, -0.0] : List Number) ≠ [] ∧
    Routine.median.run [2.0, 0.0, .negativeNaN, -0.0] = .ok ((-0.0 + 0.0) / 2.0) ∧
    Routine.median.run [.negativeNaN, -0.0, 0.0, 2.0] = .ok ((-0.0 + 0.0) / 2.0) := by
  have hne : ([2.0, 0.0, .negativeNaN, -0.0] : List Number) ≠ [] := List.cons_ne_nil _ _
  obtain ⟨hperm, -, heven⟩ := median_is_middle hne
  obtain ⟨p, q, hrun, hp, hq⟩ := heven (by decide)
  obtain rfl : -0.0 = p := (hp _).mpr ⟨by decide +kernel, by decide +kernel, by decide +kernel⟩
  obtain rfl : 0.0 = q := (hq _).mpr ⟨by decide +kernel, by decide +kernel, by decide +kernel⟩
  exact ⟨hne, hrun, (hperm _ (by decide +kernel)).1.trans hrun⟩

end Reckoner
