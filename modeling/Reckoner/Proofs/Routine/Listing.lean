/-
# `Reckoner.Proofs.Routine.Listing` — what a registry shows of the registrations

The views of a registry are read off its list and its table together: the entries in order, the
number of names, the names by category, the descriptions.  `registry_shows_registrations` says
what each of them is after any registrations, in terms of these alone: a name counts once, its
place is that of its first registration, and whatever else is shown of it is that of its last.
So a name that is registered again under another category leaves the list of the first.

The categories are filled by a loop over the entries (`foldl_file`).  Every entry has one
category, and so the lists of the categories have the names of the registry between them,
none twice (`flatMap_byCategory_perm`).
-/
import Mathlib
import Reckoner.Proofs.Routine.Registration

namespace Reckoner

/-- Splitting a list by keys, one of them for each element, loses and repeats nothing. -/
theorem flatMap_filter_perm {α β : Type} [DecidableEq β] {key : α → β} {keys : List β}
    (hkeys : keys.Nodup) {xs : List α} (hxs : ∀ x ∈ xs, key x ∈ keys) :
    (keys.flatMap fun k => xs.filter (key · = k)).Perm xs := by
  induction keys generalizing xs with
  | nil =>
    obtain rfl : xs = [] := List.eq_nil_iff_forall_not_mem.mpr fun x hx =>
      List.not_mem_nil (hxs x hx)
    exact .refl _
  | cons k keys ih =>
    obtain ⟨hk, hkeys⟩ := List.nodup_cons.mp hkeys
    -- The other keys find their elements among those that have not got the key `k`.
    have hothers : keys.flatMap (fun j => xs.filter (key · = j)) =
        keys.flatMap fun j => (xs.filter fun x => !decide (key x = k)).filter (key · = j) := by
      refine List.flatMap_congr fun j hj => ?_
      rw [List.filter_filter]
      refine List.filter_congr fun x _ => ?_
      by_cases hx : key x = j
      · simp [hx, ne_of_mem_of_not_mem hj hk]
      · simp [hx]
    rw [List.flatMap_cons, hothers]
    refine ((ih hkeys fun x hx => ?_).append_left _).trans (List.filter_append_perm _ xs)
    obtain ⟨hmem, hne⟩ := List.mem_filter.mp hx
    exact (List.mem_cons.mp (hxs x hmem)).resolve_left (by simpa using hne)

theorem Category.mem_all (c : Category) : c ∈ all := by
  cases c <;> decide

theorem Category.nodup_all : all.Nodup := by decide

namespace Registry

theorem foldl_file (es : List Entry) (listing : List (Category × List String)) :
    es.foldl file listing =
      listing.map fun g => (g.1, g.2 ++ (es.filter (·.category = g.1)).map (·.name)) := by
  induction es generalizing listing with
  | nil => simp
  | cons e es ih =>
    rw [List.foldl_cons, ih, file, List.map_map]
    refine List.map_congr_left fun g _ => ?_
    by_cases h : g.1 = e.category
    · simp [h]
    · simp [h, Ne.symm h]

section

variable {r : Registry} {es : List Entry}

/-! ## Names -/

theorem Records.nodup_names (h : r.Records es) : r.names.Nodup := by
  rw [h.names_eq]
  exact h.nodup

theorem Records.size_eq (h : r.Records es) : r.size = (es.map (·.name)).toFinset.card := by
  have hsame : r.order.toFinset = (es.map (·.name)).toFinset := by
    ext name
    rw [List.mem_toFinset, List.mem_toFinset, h.order_eq, List.mem_eraseDups]
  rw [← hsame, List.toFinset_card_of_nodup h.nodup, size]

/-! ## Categories -/

theorem Records.byCategory_eq (h : r.Records es) : r.byCategory = Category.all.map fun c =>
    (c, r.names.filter fun name => (r.get? name).map (·.category) = some c) := by
  rw [byCategory, foldl_file, List.map_map]
  refine List.map_congr_left fun c _ => ?_
  rw [Function.comp_apply, List.nil_append, names, List.filter_map]
  congr 2
  refine List.filter_congr fun e he => ?_
  simp [h.mem_entries_iff.mp he]

theorem flatMap_byCategory_perm (r : Registry) :
    (r.byCategory.flatMap (·.2)).Perm r.names := by
  rw [byCategory, foldl_file, List.map_map, List.flatMap_map, names]
  simp only [Function.comp_apply, List.nil_append, ← List.map_flatMap]
  exact (flatMap_filter_perm Category.nodup_all fun e _ => Category.mem_all e.category).map _

/-! ## Descriptions -/

theorem Records.mem_descriptions_iff (h : r.Records es) {name text : String} :
    (name, text) ∈ r.descriptions ↔ ∃ e, r.get? name = some e ∧ e.description = text := by
  rw [descriptions, List.mem_mergeSort, List.mem_map]
  constructor
  · rintro ⟨e, he, heq⟩
    obtain ⟨rfl, rfl⟩ := Prod.mk.inj heq
    exact ⟨e, h.mem_entries_iff.mp he, rfl⟩
  · rintro ⟨e, he, rfl⟩
    obtain rfl := h.name_of_get? he
    exact ⟨e, h.mem_entries_iff.mpr he, rfl⟩

theorem Records.pairwise_descriptions (h : r.Records es) :
    (r.descriptions.map (·.1)).Pairwise (· < ·) := by
  have hle : r.descriptions.Pairwise fun a b => a.1 ≤ b.1 := by
    refine (List.pairwise_mergeSort ?trans ?total _).imp of_decide_eq_true
    case trans =>
      intro a b c hab hbc
      exact decide_eq_true (String.le_trans (of_decide_eq_true hab) (of_decide_eq_true hbc))
    case total =>
      intro a b
      rw [Bool.or_eq_true, decide_eq_true_iff, decide_eq_true_iff]
      exact String.le_total a.1 b.1
  have hne : r.descriptions.Pairwise fun a b => a.1 ≠ b.1 := by
    rw [← List.pairwise_map]
    have hperm : (r.descriptions.map (·.1)).Perm r.names := by
      refine ((List.mergeSort_perm _ _).map _).trans ?_
      rw [List.map_map]
      exact .refl _
    exact hperm.nodup_iff.mpr h.nodup_names
  rw [List.pairwise_map]
  exact (hle.and hne).imp fun ⟨hab, hab'⟩ =>
    String.not_le.mp fun hba => hab' (String.le_antisymm hab hba)

end

/-- **A registry shows its registrations.**  After any registrations, names repeated or not, the
list of a registry has no name twice and the same names as its table.  The entries in order are
those of the names that were registered, each once and where it was first registered, and each with
the entry of its last registration.  Their number is that of the different names, and exactly these
are found.  Every category is listed once, with the names whose entry has it, in order; so each
name is listed under one category.  The descriptions are those of the entries, sorted by name. -/
theorem registry_shows_registrations (es : List Entry) :
    let r := ofEntries es
    (r.order.Nodup ∧ ∀ name, name ∈ r.order ↔ name ∈ r.table) ∧
    (r.names.Nodup ∧ r.names = (es.map (·.name)).eraseDups ∧
      r.entries.map some = r.names.map r.get?) ∧
    r.size = (es.map (·.name)).toFinset.card ∧
    (∀ name, r.get? name = es.reverse.find? (·.name == name) ∧
      ((r.get? name).isSome = true ↔ ∃ e ∈ es, e.name = name) ∧
      (r.contains name = true ↔ ∃ e ∈ es, e.name = name)) ∧
    (r.byCategory = Category.all.map (fun c =>
        (c, r.names.filter fun name => (r.get? name).map (·.category) = some c)) ∧
      (r.byCategory.map (·.1)).Nodup ∧ (∀ c, c ∈ r.byCategory.map (·.1)) ∧
      (r.byCategory.flatMap (·.2)).Perm r.names ∧
      (r.byCategory.map (·.2.length)).sum = r.size) ∧
    (r.descriptions.map (·.1)).Pairwise (· < ·) ∧
      ∀ name text, (name, text) ∈ r.descriptions ↔
        ∃ e, r.get? name = some e ∧ e.description = text := by
  intro r
  have h : r.Records es := records_ofEntries es
  have hkeys : r.byCategory.map (·.1) = Category.all := by
    rw [h.byCategory_eq, List.map_map]
    exact List.map_id _
  have hpartition := r.flatMap_byCategory_perm
  refine ⟨⟨h.nodup, fun name => ?_⟩, ⟨h.nodup_names, h.names_eq.trans h.order_eq, ?_⟩, h.size_eq,
    fun name => ⟨h.get?_eq name, h.isSome_get?_iff, h.contains_iff.trans h.mem_order_iff⟩,
    ⟨h.byCategory_eq, ?_, ?_, hpartition, ?_⟩, h.pairwise_descriptions,
    fun name text => h.mem_descriptions_iff⟩
  · rw [← h.contains_iff]
    exact Std.HashMap.mem_iff_contains.symm
  · rw [h.names_eq]
    exact h.map_some_entries
  · rw [hkeys]
    exact Category.nodup_all
  · rw [hkeys]
    exact Category.mem_all
  · rw [← List.length_flatMap, hpartition.length_eq, h.names_eq, size]

end Registry

end Reckoner
