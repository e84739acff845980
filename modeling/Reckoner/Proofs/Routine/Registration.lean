/-
# `Reckoner.Proofs.Routine.Registration` — what registrations lead to

A registration changes the table of a registry and the list of its names separately, and nothing
in the types keeps the two together.  `Records r es` says what both must be after the
registrations `es`: the list has every name once, in the order of their first registrations, and
the table has for every name the entry of its last.  A registration keeps this, whether its name
is new or not (`Records.register`), so it holds of whatever has been registered
(`records_ofEntries`).

All that reads a registry is then a matter of the list and the table together: the table has
the names of the list and no others, and the entries in order are those that the table has.
-/
import Mathlib.Data.List.Nodup
import Reckoner.Routine.Standard

namespace Reckoner

/-! ## Without repetitions -/

theorem eraseDups_concat {names : List String} {name : String} :
    (names ++ [name]).eraseDups =
      if name ∈ names then names.eraseDups else names.eraseDups ++ [name] := by
  rw [List.eraseDups_append, List.removeAll, List.filter_singleton]
  by_cases h : name ∈ names
  · simp [h]
  · simp [h, List.eraseDups_cons]

theorem eraseDups_of_nodup {names : List String} (h : names.Nodup) : names.eraseDups = names := by
  induction names with
  | nil => rfl
  | cons name names ih =>
    obtain ⟨hname, hnames⟩ := List.nodup_cons.mp h
    have hkeep : names.filter (fun other => !other == name) = names := by
      rw [List.filter_eq_self]
      intro other hother
      simpa using ne_of_mem_of_not_mem hother hname
    rw [List.eraseDups_cons, hkeep, ih hnames]

namespace Registry

/-! ## What is kept -/

/-- The table and the order of the registry are those of the registrations `es`. -/
structure Records (r : Registry) (es : List Entry) : Prop where
  nodup : r.order.Nodup
  /-- Names stand in the order in which they were first registered. -/
  order_eq : r.order = (es.map (·.name)).eraseDups
  /-- Every name has the entry of its last registration. -/
  get?_eq : ∀ name, r.get? name = es.reverse.find? (·.name == name)

section

variable {r : Registry} {es : List Entry} {name : String}

theorem Records.mem_order_iff (h : r.Records es) : name ∈ r.order ↔ ∃ e ∈ es, e.name = name := by
  rw [h.order_eq, List.mem_eraseDups, List.mem_map]

theorem Records.isSome_get?_iff (h : r.Records es) :
    (r.get? name).isSome = true ↔ ∃ e ∈ es, e.name = name := by
  rw [h.get?_eq, List.find?_isSome]
  simp only [List.mem_reverse, beq_iff_eq]

theorem Records.contains_iff (h : r.Records es) : r.contains name = true ↔ name ∈ r.order := by
  rw [contains_eq_isSome, h.isSome_get?_iff, h.mem_order_iff]

theorem Records.name_of_get? (h : r.Records es) {e : Entry} (he : r.get? name = some e) :
    e.name = name := by
  rw [h.get?_eq] at he
  simpa using List.find?_some he

/-! ## Steps and runs -/

theorem records_empty : empty.Records [] where
  nodup := List.nodup_nil
  order_eq := rfl
  get?_eq := get?_empty

/-- One more registration.  A name that was there keeps its place, a new one comes last. -/
theorem Records.register (h : r.Records es) (e : Entry) : (r.register e).Records (es ++ [e]) where
  nodup := by
    unfold Registry.register
    split
    · exact h.nodup
    · rename_i hnew
      rw [h.contains_iff] at hnew
      rw [← List.concat_eq_append]
      exact h.nodup.concat hnew
  order_eq := by
    have hknown : r.contains e.name = true ↔ e.name ∈ es.map (·.name) := by
      rw [h.contains_iff, h.order_eq, List.mem_eraseDups]
    rw [List.map_append, List.map_singleton, eraseDups_concat, ← h.order_eq]
    exact if_congr hknown rfl rfl
  get?_eq := by
    intro name
    rw [List.reverse_append, List.reverse_singleton, List.singleton_append, List.find?_cons]
    by_cases hname : name = e.name
    · rw [hname, get?_register_self, beq_self_eq_true]
    · have hne : (e.name == name) = false := by simpa using fun h' => hname h'.symm
      rw [get?_register_of_ne r e hname, h.get?_eq, hne]

theorem Records.foldl (h : r.Records es) (ds : List Entry) :
    (ds.foldl Registry.register r).Records (es ++ ds) := by
  induction ds generalizing r es with
  | nil => rwa [List.append_nil]
  | cons d ds ih =>
    rw [List.append_cons]
    exact ih (h.register d)

theorem records_ofEntries (es : List Entry) : (ofEntries es).Records es :=
  records_empty.foldl es

/-! ## Entries -/

theorem Records.map_some_entries (h : r.Records es) : r.entries.map some = r.order.map r.get? := by
  have hall : ∀ name ∈ r.order, (r.get? name).isSome = true := fun name hname =>
    h.isSome_get?_iff.mpr (h.mem_order_iff.mp hname)
  unfold entries
  generalize r.order = order at hall
  induction order with
  | nil => rfl
  | cons name order ih =>
    obtain ⟨hname, hall⟩ := List.forall_mem_cons.mp hall
    obtain ⟨e, he⟩ := Option.isSome_iff_exists.mp hname
    rw [List.filterMap_cons_some he, List.map_cons, List.map_cons, ih hall, he]

theorem Records.names_eq (h : r.Records es) : r.names = r.order := by
  rw [← List.map_inj_right fun _ _ => Option.some.inj]
  calc r.names.map some
      = (r.entries.map some).map (Option.map (·.name)) := by simp [names]
    _ = r.order.map fun name => (r.get? name).map (·.name) := by
        rw [h.map_some_entries, List.map_map]
        rfl
    _ = r.order.map some := List.map_congr_left fun name hname => by
        obtain ⟨e, he⟩ := Option.isSome_iff_exists.mp
          (h.isSome_get?_iff.mpr (h.mem_order_iff.mp hname))
        rw [he, Option.map_some, h.name_of_get? he]

theorem Records.mem_entries_iff (h : r.Records es) {e : Entry} :
    e ∈ r.entries ↔ r.get? e.name = some e := by
  unfold entries
  rw [List.mem_filterMap]
  constructor
  · rintro ⟨name, -, he⟩
    rwa [h.name_of_get? he]
  · intro he
    refine ⟨e.name, ?_, he⟩
    rw [h.mem_order_iff, ← h.isSome_get?_iff, he]
    rfl

end

theorem entries_ofEntries {es : List Entry} (hes : (es.map (·.name)).Nodup) :
    (ofEntries es).entries = es := by
  have h := records_ofEntries es
  rw [← List.map_inj_right fun _ _ => Option.some.inj, h.map_some_entries, h.order_eq,
    eraseDups_of_nodup hes, List.map_map]
  refine List.map_congr_left fun e he => ?_
  obtain ⟨d, hd⟩ := Option.isSome_iff_exists.mp (h.isSome_get?_iff.mpr ⟨e, he, rfl⟩)
  have hmem : d ∈ es := by
    rw [h.get?_eq] at hd
    exact List.mem_reverse.mp (List.mem_of_find?_eq_some hd)
  rw [Function.comp_apply, hd, List.inj_on_of_nodup_map hes hmem he (h.name_of_get? hd)]

/-! ## The standard registry -/

theorem records_standard :
    standard.Records (trigonometric ++ logarithmic ++ exponential ++ statistical) :=
  records_ofEntries _

/-- What is found in the standard registry.  The search on the right can be evaluated. -/
theorem get?_standard (name : String) : standard.get? name =
    (trigonometric ++ logarithmic ++ exponential ++ statistical).reverse.find? (·.name == name) :=
  records_standard.get?_eq name

theorem get?_standard_of_find? (name : String) {e : Entry}
    (h : (trigonometric ++ logarithmic ++ exponential ++ statistical).reverse.find?
      (·.name == name) = some e) : standard.get? name = some e :=
  (get?_standard name).trans h

theorem entries_standard : standard.entries =
    trigonometric ++ logarithmic ++ exponential ++ statistical :=
  entries_ofEntries nodup_names_standard

end Registry

end Reckoner
