/-
# `Reckoner.Proofs.Routine.Mode` — the most frequent value

The mode is found in two runs.  The first tallies: every value that equals none before it
gets a counter of its own, behind the others, and a value that equals an earlier one is
counted there.  `FirstSeen` says of the values that have a counter which entries of the
list they are, and `Tallied` that their counters are right; one more value keeps both
(`Tallied.tally`), so the whole run does.  The second run picks the first of the largest
counters (`exists_leader`).

Equality of doubles is no equality of entries: not-a-number equals nothing, so that each
one is counted alone, and the two zeros equal each other, so that a zero is counted where
the first zero stands, whichever it is.
-/
import Reckoner.Proofs.Binary64.Order
import Reckoner.Proofs.Routine.Registration

namespace Reckoner

/-! ## Equal numbers -/

namespace Number

def Equals (x y : Number) : Prop := (x.toFloat == y.toFloat) = true

instance (x y : Number) : Decidable (x.Equals y) :=
  inferInstanceAs (Decidable ((x.toFloat == y.toFloat) = true))

variable {x y z : Number}

theorem equals_iff : x.Equals y ↔ x.isNaN = false ∧
    Binary64.forgetZeroSign (Binary64.parts x.toFloat) =
      Binary64.forgetZeroSign (Binary64.parts y.toFloat) := Binary64.beq_iff_parts

theorem Equals.isNaN_left (h : x.Equals y) : x.isNaN = false := (equals_iff.mp h).1

theorem Equals.isNaN_right (h : x.Equals y) : y.isNaN = false := by
  obtain ⟨hx, hparts⟩ := equals_iff.mp h
  show (Binary64.parts y.toFloat).isNaN = false
  rw [← Binary64.isNaN_forgetZeroSign, ← hparts, Binary64.isNaN_forgetZeroSign]
  exact hx

theorem Equals.symm (h : x.Equals y) : y.Equals x :=
  equals_iff.mpr ⟨h.isNaN_right, (equals_iff.mp h).2.symm⟩

theorem Equals.trans (hxy : x.Equals y) (hyz : y.Equals z) : x.Equals z :=
  equals_iff.mpr ⟨hxy.isNaN_left, (equals_iff.mp hxy).2.trans (equals_iff.mp hyz).2⟩

theorem equals_self (h : x.isNaN = false) : x.Equals x := equals_iff.mpr ⟨h, rfl⟩

end Number

/-- The count of a value in a list: how many entries equal it.  Each not-a-number counts as one. -/
def occurrences (xs : List Number) (x : Number) : Nat :=
  if x.isNaN then 1 else xs.countP fun y => y.Equals x

/-- Two values with one counter: they are the same, or they compare equal. -/
def Number.Alike (x y : Number) : Prop := x = y ∨ x.Equals y

theorem occurrences_of_alike {xs : List Number} {x y : Number} (h : x.Alike y) :
    occurrences xs x = occurrences xs y := by
  rcases h with rfl | h
  · rfl
  · rw [occurrences, occurrences, h.isNaN_left, h.isNaN_right]
    refine List.countP_congr fun z _ => ?_
    simp only [decide_eq_true_eq]
    exact ⟨fun hz => hz.trans h, fun hz => hz.trans h.symm⟩

theorem occurrences_snoc_of_equals (xs : List Number) {x y : Number} (h : x.Equals y) :
    occurrences (xs ++ [y]) x = occurrences xs x + 1 := by
  rw [occurrences, occurrences, h.isNaN_left, List.countP_append,
    List.countP_singleton, if_pos (decide_eq_true h.symm)]
  rfl

theorem occurrences_snoc_of_not_equals (xs : List Number) {x y : Number} (h : ¬x.Equals y) :
    occurrences (xs ++ [y]) x = occurrences xs x := by
  have hy : ¬decide (y.Equals x) = true := by simpa using fun hy => h hy.symm
  rw [occurrences, occurrences, List.countP_append, List.countP_singleton, if_neg hy, Nat.add_zero]

/-! ## The tally -/

theorem tally_cases (counts : List (Number × Nat)) (x : Number) :
    (∃ before p after, counts = before ++ p :: after ∧ (∀ q ∈ before, ¬q.1.Equals x) ∧
      p.1.Equals x ∧ Routine.tally counts x = before ++ (p.1, p.2 + 1) :: after) ∨
    ((∀ p ∈ counts, ¬p.1.Equals x) ∧ Routine.tally counts x = counts ++ [(x, 1)]) := by
  induction counts with
  | nil => exact Or.inr ⟨List.forall_mem_nil _, rfl⟩
  | cons c counts ih =>
      rw [Routine.tally]
      split_ifs with hc
      · exact Or.inl ⟨[], c, counts, rfl, List.forall_mem_nil _, hc, rfl⟩
      · rcases ih with ⟨before, p, after, rfl, hbefore, hp, htally⟩ | ⟨hnone, htally⟩
        · refine Or.inl ⟨c :: before, p, after, rfl, ?_, hp, by rw [htally]; rfl⟩
          exact List.forall_mem_cons.mpr ⟨hc, hbefore⟩
        · exact Or.inr ⟨List.forall_mem_cons.mpr ⟨hc, hnone⟩, by rw [htally]; rfl⟩

/-- `values` are the entries of `xs` that equal none before them, in order. -/
structure FirstSeen (xs values : List Number) : Prop where
  /-- No two are equal. -/
  apart : values.Pairwise fun v w => ¬v.Equals w
  /-- Every entry is counted at one of them. -/
  seen : ∀ x ∈ xs, ∃ v ∈ values, v.Alike x
  /-- What stands before one of them in the list is counted before it. -/
  first : ∀ before v after, values = before ++ v :: after →
    ∃ earlier later, xs = earlier ++ v :: later ∧ ∀ x ∈ earlier, ∃ w ∈ before, w.Alike x

theorem FirstSeen.known {xs values : List Number} (h : FirstSeen xs values) {v x : Number}
    (hv : v ∈ values) (hx : v.Equals x) : FirstSeen (xs ++ [x]) values where
  apart := h.apart
  seen y hy := by
    rcases List.mem_append.mp hy with hy | hy
    · exact h.seen y hy
    · exact ⟨v, hv, Or.inr (List.mem_singleton.mp hy ▸ hx)⟩
  first before w after hvalues := by
    obtain ⟨earlier, later, rfl, hearlier⟩ := h.first before w after hvalues
    exact ⟨earlier, later ++ [x], by simp, hearlier⟩

theorem FirstSeen.unknown {xs values : List Number} (h : FirstSeen xs values) {x : Number}
    (hx : ∀ v ∈ values, ¬v.Equals x) : FirstSeen (xs ++ [x]) (values ++ [x]) where
  apart := List.pairwise_append.mpr ⟨h.apart, List.pairwise_singleton _ _, by simpa using hx⟩
  seen y hy := by
    rcases List.mem_append.mp hy with hy | hy
    · obtain ⟨v, hv, hvy⟩ := h.seen y hy
      exact ⟨v, List.mem_append_left _ hv, hvy⟩
    · exact ⟨x, List.mem_append_right _ List.mem_cons_self, Or.inl (List.mem_singleton.mp hy).symm⟩
  first before w after hvalues := by
    rcases List.eq_nil_or_concat after with rfl | ⟨after, y, rfl⟩
    · -- the new value: everything before it has been seen
      obtain ⟨rfl, hw⟩ := List.append_inj' hvalues rfl
      obtain rfl := List.head_eq_of_cons_eq hw
      exact ⟨xs, [], rfl, h.seen⟩
    · have hvalues : values ++ [x] = (before ++ w :: after) ++ [y] := by simpa using hvalues
      obtain ⟨hvalues, -⟩ := List.append_inj' hvalues rfl
      obtain ⟨earlier, later, rfl, hearlier⟩ := h.first before w after hvalues
      exact ⟨earlier, later ++ [x], by simp, hearlier⟩

/-- The counters after the values of `xs`. -/
structure Tallied (xs : List Number) (counts : List (Number × Nat)) : Prop where
  values : FirstSeen xs (counts.map Prod.fst)
  counted : ∀ p ∈ counts, p.2 = occurrences xs p.1

theorem tallied_nil : Tallied [] [] where
  values :=
    { apart := List.Pairwise.nil
      seen := List.forall_mem_nil _
      first := fun _ _ _ h => absurd h.symm (List.append_ne_nil_of_right_ne_nil _
        (List.cons_ne_nil _ _)) }
  counted := List.forall_mem_nil _

theorem FirstSeen.occurrences_snoc {xs values : List Number} (h : FirstSeen xs values) {x : Number}
    (hx : ∀ v ∈ values, ¬v.Equals x) : occurrences (xs ++ [x]) x = 1 := by
  cases hnan : x.isNaN with
  | true => rw [occurrences, if_pos hnan]
  | false =>
      have hnone : xs.countP (fun y => y.Equals x) = 0 := by
        refine List.countP_eq_zero.mpr fun y hy => ?_
        obtain ⟨v, hv, rfl | hvy⟩ := h.seen y hy
        · simpa using hx v hv
        · simpa using fun hyx => hx v hv (hvy.trans hyx)
      rw [occurrences, hnan, List.countP_append, hnone, List.countP_singleton,
        if_pos (decide_eq_true (Number.equals_self hnan))]
      rfl

theorem Tallied.tally {xs : List Number} {counts : List (Number × Nat)} (h : Tallied xs counts)
    (x : Number) : Tallied (xs ++ [x]) (Routine.tally counts x) := by
  rcases tally_cases counts x with
    ⟨before, p, after, rfl, hbefore, hp, htally⟩ | ⟨hnone, htally⟩
  · have hmem : p ∈ before ++ p :: after := List.mem_append_right _ List.mem_cons_self
    have hafter : ∀ q ∈ after, ¬q.1.Equals x := by
      intro q hq hqx
      have hapart := h.values.apart
      rw [List.map_append, List.map_cons, List.pairwise_append, List.pairwise_cons] at hapart
      exact hapart.2.1.1 q.1 (List.mem_map_of_mem hq) (hp.trans hqx.symm)
    rw [htally]
    refine ⟨?_, ?_⟩
    · have hvalues := h.values.known (List.mem_map_of_mem hmem) hp
      simpa using hvalues
    · intro q hq
      rcases List.mem_append.mp hq with hq | hq
      · rw [occurrences_snoc_of_not_equals xs (hbefore q hq)]
        exact h.counted q (List.mem_append_left _ hq)
      rcases List.mem_cons.mp hq with rfl | hq
      · rw [occurrences_snoc_of_equals xs hp, ← h.counted p hmem]
      · rw [occurrences_snoc_of_not_equals xs (hafter q hq)]
        exact h.counted q (List.mem_append_right _ (List.mem_cons_of_mem _ hq))
  · have hvalues : ∀ v ∈ counts.map Prod.fst, ¬v.Equals x := List.forall_mem_map.mpr hnone
    rw [htally]
    refine ⟨?_, ?_⟩
    · rw [List.map_append]
      exact h.values.unknown hvalues
    · intro q hq
      rcases List.mem_append.mp hq with hq | hq
      · rw [occurrences_snoc_of_not_equals xs (hnone q hq)]
        exact h.counted q hq
      · obtain rfl := List.mem_singleton.mp hq
        exact (h.values.occurrences_snoc hvalues).symm

theorem tallied_foldl (xs : List Number) : Tallied xs (xs.foldl Routine.tally []) := by
  induction xs using List.reverseRecOn with
  | nil => exact tallied_nil
  | append_singleton xs x ih =>
      rw [List.foldl_append]
      exact ih.tally x

/-! ## The leader -/

/-- The run over the counters ends at the first of the largest. -/
theorem exists_leader {counts : List (Number × Nat)} (hne : counts ≠ []) :
    ∃ before p after, counts = before ++ p :: after ∧
      counts.foldl Routine.leader none = some p ∧
      (∀ q ∈ before, q.2 < p.2) ∧ ∀ q ∈ after, q.2 ≤ p.2 := by
  induction counts using List.reverseRecOn with
  | nil => exact absurd rfl hne
  | append_singleton counts c ih =>
      rcases List.eq_nil_or_concat counts with rfl | ⟨_, _, rfl⟩
      · exact ⟨[], c, [], rfl, rfl, List.forall_mem_nil _, List.forall_mem_nil _⟩
      · obtain ⟨before, p, after, hcounts, hleader, hbefore, hafter⟩ := ih (by simp)
        rw [List.foldl_append, hleader, hcounts, List.foldl_cons, Routine.leader]
        split_ifs with hlarger
        · refine ⟨before ++ p :: after, c, [], rfl, rfl, ?_, List.forall_mem_nil _⟩
          intro q hq
          rcases List.mem_append.mp hq with hq | hq
          · exact (hbefore q hq).trans hlarger
          rcases List.mem_cons.mp hq with rfl | hq
          · exact hlarger
          · exact (hafter q hq).trans_lt hlarger
        · refine ⟨before, p, after ++ [c], by simp, rfl, hbefore, ?_⟩
          intro q hq
          rcases List.mem_append.mp hq with hq | hq
          · exact hafter q hq
          · exact List.mem_singleton.mp hq ▸ not_lt.mp hlarger

/-! ## The mode -/

theorem mostFrequent_spec {xs : List Number} (hne : xs ≠ []) :
    ∃ before after, xs = before ++ Routine.mostFrequent xs :: after ∧
      (∀ x ∈ before, occurrences xs x < occurrences xs (Routine.mostFrequent xs)) ∧
      ∀ x ∈ after, occurrences xs x ≤ occurrences xs (Routine.mostFrequent xs) := by
  have htallied := tallied_foldl xs
  have hcounts : xs.foldl Routine.tally [] ≠ [] := by
    intro hnil
    obtain ⟨x, hx⟩ := List.exists_mem_of_ne_nil xs hne
    obtain ⟨v, hv, -⟩ := htallied.values.seen x hx
    rw [hnil] at hv
    exact List.not_mem_nil hv
  obtain ⟨before, p, after, hsplit, hleader, hbefore, hafter⟩ := exists_leader hcounts
  have hmode : Routine.mostFrequent xs = p.1 := by rw [Routine.mostFrequent, hleader]; rfl
  rw [hsplit] at htallied
  have hp : p.2 = occurrences xs p.1 :=
    htallied.counted p (List.mem_append_right _ List.mem_cons_self)
  have hmost : ∀ q ∈ before ++ p :: after, q.2 ≤ p.2 := by
    intro q hq
    rcases List.mem_append.mp hq with hq | hq
    · exact (hbefore q hq).le
    rcases List.mem_cons.mp hq with rfl | hq
    · exact le_rfl
    · exact hafter q hq
  obtain ⟨earlier, later, hxs, hearlier⟩ :=
    htallied.values.first _ p.1 _ (List.map_append.trans (congrArg _ List.map_cons))
  rw [hmode]
  refine ⟨earlier, later, hxs, ?_, ?_⟩
  · intro x hx
    obtain ⟨w, hw, hwx⟩ := hearlier x hx
    obtain ⟨q, hq, rfl⟩ := List.mem_map.mp hw
    rw [← occurrences_of_alike hwx, ← htallied.counted q (List.mem_append_left _ hq), ← hp]
    exact hbefore q hq
  · intro x hx
    obtain ⟨w, hw, hwx⟩ := htallied.values.seen x
      (hxs ▸ List.mem_append_right _ (List.mem_cons_of_mem _ hx))
    obtain ⟨q, hq, rfl⟩ := List.mem_map.mp hw
    rw [← occurrences_of_alike hwx, ← htallied.counted q hq, ← hp]
    exact hmost q hq

theorem mostFrequent_mem {xs : List Number} (hne : xs ≠ []) : Routine.mostFrequent xs ∈ xs := by
  obtain ⟨before, after, hxs, -⟩ := mostFrequent_spec hne
  have hmem : Routine.mostFrequent xs ∈ before ++ Routine.mostFrequent xs :: after :=
    List.mem_append_right _ List.mem_cons_self
  rwa [← hxs] at hmem

/-- An answer that is one of the arguments is no overflow. -/
theorem Entry.call_of_mem {e : Entry} {xs : List Number} {v : Number}
    (hcount : e.arity.accepts xs.length = true) (hrun : e.routine.run xs = .ok v) (hv : v ∈ xs) :
    e.call xs = .ok v := by
  have hcheck : (!v.isFinite && xs.all Number.isFinite) = false := by
    cases hall : xs.all Number.isFinite with
    | false => exact Bool.and_false _
    | true => rw [List.all_eq_true.mp hall v hv]; rfl
  simp only [Entry.call, if_pos hcount, hrun, hcheck]
  rfl

/-- **The mode is the first of the most frequent values.**  Of no values it is zero.  Of any others
it is an entry of the list, with its own sign if it is a zero: no entry occurs more often, and those
before it less often.  The checks of the entry change nothing. -/
theorem mode_is_first_most_frequent :
    Routine.mode.run [] = .ok 0.0 ∧
    ∀ xs : List Number, xs ≠ [] → ∃ before v after, xs = before ++ v :: after ∧
      Routine.mode.run xs = .ok v ∧
      (∃ e, Registry.standard.get? "mode" = some e ∧ e.call xs = .ok v) ∧
      (∀ x ∈ before, occurrences xs x < occurrences xs v) ∧
      ∀ x ∈ after, occurrences xs x ≤ occurrences xs v := by
  refine ⟨rfl, fun xs hne => ?_⟩
  obtain ⟨before, after, hxs, hbefore, hafter⟩ := mostFrequent_spec hne
  have hrun : Routine.mode.run xs = .ok (Routine.mostFrequent xs) := rfl
  obtain ⟨e, he, hroutine, harity⟩ : ∃ e, Registry.standard.get? "mode" = some e ∧
      e.routine = Routine.mode ∧ e.arity = .atLeast 1 :=
    ⟨_, Registry.get?_standard_of_find? _ rfl, rfl, rfl⟩
  have hcount : e.arity.accepts xs.length = true := by
    rw [harity]
    exact decide_eq_true (List.length_pos_iff.mpr hne)
  have hcall := Entry.call_of_mem hcount (hroutine ▸ hrun) (mostFrequent_mem hne)
  exact ⟨before, _, after, hxs, hrun, ⟨e, he, hcall⟩, hbefore, hafter⟩

/-- The two zeros are counted together, at the negative one, and as often as one; two
not-a-numbers are not. -/
theorem mode_is_first_most_frequent_zeros :
    ∃ before after, [.negativeNaN, .negativeNaN, -0.0, 1.0, 0.0, 1.0] =
        before ++ (-0.0 : Number) :: after ∧
      Routine.mode.run [.negativeNaN, .negativeNaN, -0.0, 1.0, 0.0, 1.0] = .ok (-0.0) := by
  obtain ⟨before, v, after, hxs, hrun, -⟩ := mode_is_first_most_frequent.2
    [.negativeNaN, .negativeNaN, -0.0, 1.0, 0.0, 1.0] (List.cons_ne_nil _ _)
  have hzero : Routine.mode.run [.negativeNaN, .negativeNaN, -0.0, 1.0, 0.0, 1.0] = .ok (-0.0) := by
    decide +kernel
  obtain rfl := Except.ok.inj (hrun.symm.trans hzero)
  exact ⟨before, after, hxs, hrun⟩

end Reckoner
