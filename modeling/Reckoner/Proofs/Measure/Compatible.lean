/-
# `Reckoner.Proofs.Measure.Compatible` — converting and being compatible

Two paths decide whether two units go together.  `compatibleNamed` compares their
dimensions and nothing else.  `convertNamed` also needs scales of one kind, and
would refuse two units of one dimension whose scales are of different kinds.  No two
such units exist: in the table a unit has a scale of temperature exactly when its
dimension is temperature (`isTemperature_scale_iff`).

So both paths give the same verdict on every pair of names, and where a name is
unknown they tell the same fault, that of the first name first.
-/
import Reckoner.Measure.Convert
import Reckoner.Proofs.Outcome

namespace Reckoner

def Scale.isTemperature : Scale → Bool
  | .linear _ => false
  | .temperature _ => true

theorem Scale.exists_convert? {s t : Scale} (h : s.isTemperature = t.isTemperature) (x : Float) :
    ∃ y, Scale.convert? x s t = some y := by
  cases s with
  | linear a =>
      cases t with
      | linear b => exact ⟨_, rfl⟩
      | temperature t => exact absurd h (by simp [isTemperature])
  | temperature s =>
      cases t with
      | linear b => exact absurd h (by simp [isTemperature])
      | temperature t => exact ⟨_, rfl⟩

namespace Measure

/-! ## The table -/

theorem isTemperature_scale_iff :
    ∀ m ∈ table, (m.scale.isTemperature = true ↔ m.dimension = .temperature) := by
  decide

theorem mem_table_of_lookup {name : String} {m : Measure} (h : lookup name = .ok m) :
    m ∈ table := by
  simp only [lookup] at h
  split at h
  · exact nomatch h
  · split at h
    · rename_i n hn
      obtain rfl := Except.ok.inj h
      exact List.mem_of_find?_eq_some hn
    · exact nomatch h

theorem convert_of_mem_table {m n : Measure} (hm : m ∈ table) (hn : n ∈ table) (x : Float) :
    (m.dimension = n.dimension → ∃ y, convert x m n = .ok y) ∧
      (m.dimension ≠ n.dimension → convert x m n = .error (.incompatible m n)) := by
  constructor
  · intro h
    have hkind : m.scale.isTemperature = n.scale.isTemperature := by
      rw [Bool.eq_iff_iff, isTemperature_scale_iff m hm, isTemperature_scale_iff n hn, h]
    obtain ⟨y, hy⟩ := Scale.exists_convert? hkind x
    exact ⟨y, by rw [convert, if_pos h, hy]⟩
  · intro h
    rw [convert, if_neg h]

/-! ## Two names -/

/-- The units of two names; the fault is that of the first name that stands for none. -/
def resolve (a b : String) : Except LookupFault (Measure × Measure) := do
  let m ← lookup a
  let n ← lookup b
  return (m, n)

theorem resolve_eq_ok_iff {a b : String} {p : Measure × Measure} :
    resolve a b = .ok p ↔ lookup a = .ok p.1 ∧ lookup b = .ok p.2 := by
  constructor
  · intro h
    obtain ⟨m, hm, h⟩ := bind_eq_ok_iff.mp h
    obtain ⟨n, hn, h⟩ := bind_eq_ok_iff.mp h
    obtain rfl := Except.ok.inj h
    exact ⟨hm, hn⟩
  · rintro ⟨hm, hn⟩
    rw [resolve, hm, hn]
    rfl

theorem compatibleNamed_eq (a b : String) :
    compatibleNamed a b = (resolve a b).map fun p => decide (p.1.dimension = p.2.dimension) := by
  rw [compatibleNamed, resolve]
  cases lookup a with
  | error fault => rfl
  | ok m =>
      cases lookup b with
      | error fault => rfl
      | ok n => rfl

theorem convertNamed_eq {x : Float} (hx : x.isFinite = true) (a b : String) :
    convertNamed x a b = (resolve a b).mapError .lookup >>= fun p => convert x p.1 p.2 := by
  rw [convertNamed, if_neg (by simp [hx]), resolve]
  cases lookup a with
  | error fault => rfl
  | ok m =>
      cases lookup b with
      | error fault => rfl
      | ok n => rfl

theorem convertNamed_of_not_finite {x : Float} (hx : x.isFinite = false) (a b : String) :
    convertNamed x a b = .error (.notFinite x) := by
  rw [convertNamed, if_pos (by simp [hx])]

theorem convertNamed_cases {x : Float} (hx : x.isFinite = true) (a b : String) :
    (∃ y, convertNamed x a b = .ok y ∧ compatibleNamed a b = .ok true) ∨
    (∃ m n, lookup a = .ok m ∧ lookup b = .ok n ∧
      convertNamed x a b = .error (.incompatible m n) ∧ compatibleNamed a b = .ok false) ∨
    (∃ fault, convertNamed x a b = .error (.lookup fault) ∧
      compatibleNamed a b = .error fault) := by
  rw [convertNamed_eq hx, compatibleNamed_eq]
  cases hr : resolve a b with
  | error fault => exact Or.inr (Or.inr ⟨fault, rfl, rfl⟩)
  | ok p =>
      obtain ⟨hm, hn⟩ := resolve_eq_ok_iff.mp hr
      obtain ⟨hok, hincompatible⟩ :=
        convert_of_mem_table (mem_table_of_lookup hm) (mem_table_of_lookup hn) x
      by_cases h : p.1.dimension = p.2.dimension
      · obtain ⟨y, hy⟩ := hok h
        exact Or.inl ⟨y, hy, congrArg Except.ok (decide_eq_true h)⟩
      · exact Or.inr (Or.inl ⟨p.1, p.2, hm, hn, hincompatible h,
          congrArg Except.ok (decide_eq_false h)⟩)

theorem kind_report_lookup (fault : LookupFault) : fault.report.kind = .unit := by
  cases fault with
  | emptyName => rfl
  | unknown name => rfl

theorem compatibleNamed_eq_ok_true_iff {a b : String} {m n : Measure} (hm : lookup a = .ok m)
    (hn : lookup b = .ok n) : compatibleNamed a b = .ok true ↔ m.dimension = n.dimension := by
  have hr : resolve a b = .ok (m, n) := resolve_eq_ok_iff.mpr ⟨hm, hn⟩
  rw [compatibleNamed_eq, hr]
  simp [Except.map]

/-- **Converting and being compatible.**  A number that is not finite has no conversion, whatever
the names.  A finite one converts exactly between compatible names; it meets two dimensions exactly
between incompatible ones, and then both canonical names are noted; and it meets an unknown unit
exactly where compatibility does, with the same report, which is the first name's if that is
unknown.  Factors exist for the same pairs.  Compatible names fall into classes. -/
theorem convertNamed_agrees :
    (∀ (x : Float) (a b : String), x.isFinite = false →
      ∃ fault, convertNamed x a b = .error fault ∧ fault.report.kind = .evaluation) ∧
    (∀ (x : Float) (a b : String), x.isFinite = true →
      ((∃ y, convertNamed x a b = .ok y) ↔ compatibleNamed a b = .ok true) ∧
      ((∃ fault, convertNamed x a b = .error fault ∧ fault.report.kind = .dimensionality) ↔
        compatibleNamed a b = .ok false) ∧
      (∀ fault, convertNamed x a b = .error fault → fault.report.kind = .dimensionality →
        ∃ m n, lookup a = .ok m ∧ lookup b = .ok n ∧
          fault.report.notes = [("from_unit", m.name), ("to_unit", n.name)]) ∧
      ((∃ fault, convertNamed x a b = .error fault ∧ fault.report.kind = .unit) ↔
        ∃ fault, compatibleNamed a b = .error fault) ∧
      (∀ fault, compatibleNamed a b = .error fault →
        ∃ fault', convertNamed x a b = .error fault' ∧ fault'.report = fault.report)) ∧
    (∀ (a b : String) (fault : LookupFault), lookup a = .error fault →
      compatibleNamed a b = .error fault) ∧
    (∀ a b : String, (∃ y, factorNamed a b = .ok y) ↔ compatibleNamed a b = .ok true) ∧
    Equivalence fun a b : { name : String // ∃ m, lookup name = .ok m } =>
      compatibleNamed a b = .ok true := by
  have hconvert : ∀ (x : Float) (a b : String), x.isFinite = true →
      ((∃ y, convertNamed x a b = .ok y) ↔ compatibleNamed a b = .ok true) := by
    intro x a b hx
    rcases convertNamed_cases hx a b with ⟨y, hy, hc⟩ | ⟨m, n, _, _, hy, hc⟩ | ⟨fault, hy, hc⟩
    · simp [hy, hc]
    · simp [hy, hc]
    · simp [hy, hc]
  refine ⟨?_, ?_, ?_, ?_, ?_⟩
  · intro x a b hx
    exact ⟨_, convertNamed_of_not_finite hx a b, rfl⟩
  · intro x a b hx
    refine ⟨hconvert x a b hx, ?_⟩
    rcases convertNamed_cases hx a b with ⟨y, hy, hc⟩ | ⟨m, n, hm, hn, hy, hc⟩ | ⟨fault, hy, hc⟩
    · simp [hy, hc]
    · simp [hy, hc, hm, hn, ConversionFault.report]
    · simp [hy, hc, ConversionFault.report, kind_report_lookup]
  · intro a b fault ha
    rw [compatibleNamed, ha]
    rfl
  · intro a b
    exact hconvert 1.0 a b (by decide +kernel)
  · constructor
    · rintro ⟨a, m, hm⟩
      exact (compatibleNamed_eq_ok_true_iff hm hm).mpr rfl
    · rintro ⟨a, m, hm⟩ ⟨b, n, hn⟩ h
      exact (compatibleNamed_eq_ok_true_iff hn hm).mpr
        ((compatibleNamed_eq_ok_true_iff hm hn).mp h).symm
    · rintro ⟨a, m, hm⟩ ⟨b, n, hn⟩ ⟨c, k, hk⟩ hab hbc
      exact (compatibleNamed_eq_ok_true_iff hm hk).mpr
        (((compatibleNamed_eq_ok_true_iff hm hn).mp hab).trans
          ((compatibleNamed_eq_ok_true_iff hn hk).mp hbc))

/-- Two and a half miles convert to kilometers, however the names are spelled, but not to pounds;
an infinity of them converts to nothing. -/
theorem convertNamed_agrees_miles :
    ((2.5 : Float).isFinite = true ∧ ∃ y, convertNamed 2.5 " Miles" "KM" = .ok y) ∧
      (∃ fault, convertNamed 2.5 "mi" "lb" = .error fault ∧
        fault.report.kind = .dimensionality) ∧
      (1.0 / 0.0 : Float).isFinite = false ∧
        ∃ fault, convertNamed (1.0 / 0.0) "mi" "" = .error fault ∧
          fault.report.kind = .evaluation := by
  have hx : (2.5 : Float).isFinite = true := by decide +kernel
  have hinf : (1.0 / 0.0 : Float).isFinite = false := by decide +kernel
  have hmiles : compatibleNamed " Miles" "KM" = .ok true := by with_unfolding_all rfl
  have hpounds : compatibleNamed "mi" "lb" = .ok false := by with_unfolding_all rfl
  obtain ⟨hinfinite, hfinite, -⟩ := convertNamed_agrees
  exact ⟨⟨hx, (hfinite _ _ _ hx).1.mpr hmiles⟩, (hfinite _ _ _ hx).2.1.mpr hpounds, hinf,
    hinfinite _ _ _ hinf⟩

end Measure

end Reckoner
