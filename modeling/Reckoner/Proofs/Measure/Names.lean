/-
# `Reckoner.Proofs.Measure.Names` — every spelling of every name

A unit is found under a text exactly if the *normal form* of the text, without the blanks
around it, in lower case and with underscores between words, is one of the unit's names.
No two units share a name, so the order of the table does not matter; and every name is
its own normal form, so none is out of reach.

Three passes make the normal form, and their order matters: blanks are taken from the
margins before those between words become underscores.  No name begins or ends with an
underscore, so the first pass never takes a separator.

The lower-case form of a text is that of its characters, one by one, but for the Greek
capital sigma, which becomes a final sigma at the end of a word.  `Text.lowerWith` leaves
that rule open; no name holds a sigma, so no look-up depends on it.
-/
import Mathlib
import Reckoner.Measure.Lookup

namespace Reckoner

namespace Text

/-! ## Margins -/

theorem trimBlanks_eq_nil_iff {cs : List Char} :
    trimBlanks cs = [] ↔ ∀ c ∈ cs, isBlank c = true := by
  have hright : trimBlanks cs = [] ↔ ∀ c ∈ cs.dropWhile isBlank, isBlank c = true :=
    List.rdropWhile_eq_nil_iff
  rw [hright]
  constructor
  · intro h
    have hleft : cs.dropWhile isBlank = [] := by
      by_contra hne
      have hhead := List.head_dropWhile_not isBlank hne
      rw [h _ (List.head_mem hne)] at hhead
      exact Bool.false_ne_true hhead.symm
    exact List.dropWhile_eq_nil_iff.mp hleft
  · intro h c hc
    exact h c ((List.dropWhile_suffix isBlank).subset hc)

theorem dropWhile_isBlank_append {before cs : List Char} (hbefore : ∀ c ∈ before, isBlank c = true)
    (hcs : ∀ c, cs.head? = some c → isBlank c = false) :
    (before ++ cs).dropWhile isBlank = cs := by
  rw [List.dropWhile_append_of_pos hbefore]
  cases cs with
  | nil => rfl
  | cons c cs => exact List.dropWhile_cons_of_neg (by rw [hcs c rfl]; exact Bool.false_ne_true)

theorem trimBlanks_around {before word after : List Char}
    (hbefore : ∀ c ∈ before, isBlank c = true) (hafter : ∀ c ∈ after, isBlank c = true)
    (hne : word ≠ []) (hfirst : ∀ c, word.head? = some c → isBlank c = false)
    (hlast : ∀ c, word.reverse.head? = some c → isBlank c = false) :
    trimBlanks (before ++ word ++ after) = word := by
  have hhead : (word ++ after).head? = word.head? := List.head?_append_of_ne_nil _ hne
  have hleft : (before ++ word ++ after).dropWhile isBlank = word ++ after := by
    rw [List.append_assoc]
    exact dropWhile_isBlank_append hbefore fun c hc => hfirst c (hhead ▸ hc)
  have hright : (after.reverse ++ word.reverse).dropWhile isBlank = word.reverse :=
    dropWhile_isBlank_append (fun c hc => hafter c (List.mem_reverse.mp hc)) hlast
  rw [trimBlanks, hleft, List.reverse_append, hright, List.reverse_reverse]

/-! ## Letter case -/

theorem lowerChar_of_isBlank {c : Char} (h : isBlank c = true) : lowerChar c = [c] := by
  have hcheck : ∀ r ∈ blankRanges, ∀ k < r.2 + 1 - r.1,
      lowerChar (Char.ofNat (r.1 + k)) = [Char.ofNat (r.1 + k)] := by decide
  obtain ⟨r, hr, hrange⟩ := List.any_eq_true.mp h
  simp only [Bool.and_eq_true, decide_eq_true_eq] at hrange
  have hc := hcheck r hr (c.toNat - r.1) (by omega)
  rwa [Nat.add_sub_cancel' hrange.1, Char.ofNat_toNat] at hc

theorem lowerChar_ne_nil (c : Char) : lowerChar c ≠ [] := by
  unfold lowerChar
  split_ifs
  · exact List.cons_ne_nil _ _
  · exact List.cons_ne_nil _ _
  · split <;> exact List.cons_ne_nil _ _

theorem lower_eq_nil_iff {cs : List Char} : lower cs = [] ↔ cs = [] := by
  rw [lower, List.flatMap_eq_nil_iff]
  constructor
  · intro h
    exact List.eq_nil_iff_forall_not_mem.mpr fun c hc => lowerChar_ne_nil c (h c hc)
  · rintro rfl
    exact List.forall_mem_nil _

/-- `d` is `c` in some letter case: `c` itself, its capital, or any other character that has `c`
for its lower-case form. -/
def CaseOf (c d : Char) : Prop := d = c ∨ d = c.toUpper ∨ lowerChar d = [c]

instance (c d : Char) : Decidable (CaseOf c d) :=
  inferInstanceAs (Decidable (d = c ∨ d = c.toUpper ∨ lowerChar d = [c]))

/-! ## The final sigma -/

/-- The lower-case form of `cs` behind the text `before`.  Where `final` says so, by the text before
and after it, a capital sigma becomes a final one. -/
def lowerWith (final : List Char → List Char → Bool) (before : List Char) : List Char → List Char
  | [] => []
  | c :: cs =>
    (if c = 'Σ' then if final before cs then ['ς'] else ['σ'] else lowerChar c) ++
      lowerWith final (before ++ [c]) cs

/-- The final sigma made medial, the other characters as they are. -/
def medial (c : Char) : Char := if c = 'ς' then 'σ' else c

theorem map_medial_lowerWith (final : List Char → List Char → Bool) (before cs : List Char) :
    (lowerWith final before cs).map medial = (lower cs).map medial := by
  have hsigma : lowerChar 'Σ' = ['σ'] := by decide
  induction cs generalizing before with
  | nil => rfl
  | cons c cs ih =>
      rw [lowerWith, lower, List.flatMap_cons, List.map_append, List.map_append, ih, lower]
      congr 1
      split_ifs with hc
      · rw [hc, hsigma]
        rfl
      · rw [hc, hsigma]
      · rfl

end Text

namespace Measure

/-! ## Names -/

/-- Names are written with small letters, digits, underscores and slashes. -/
def isNameChar (c : Char) : Bool := c.isLower || c.isDigit || c == '_' || c == '/'

theorem normal_of_isNameChar {c : Char} (h : isNameChar c = true) :
    Text.lowerChar c = [c] ∧ Text.lowerChar c.toUpper = [c] ∧ underscore c = c ∧
      Text.isBlank c = false ∧ c ≠ 'σ' ∧ c ≠ 'ς' := by
  have hcheck : ∀ n < 128, isNameChar (Char.ofNat n) = true →
      Text.lowerChar (Char.ofNat n) = [Char.ofNat n] ∧
        Text.lowerChar (Char.ofNat n).toUpper = [Char.ofNat n] ∧
        underscore (Char.ofNat n) = Char.ofNat n ∧ Text.isBlank (Char.ofNat n) = false ∧
        Char.ofNat n ≠ 'σ' ∧ Char.ofNat n ≠ 'ς' := by decide
  have hascii : c.toNat < 128 := by
    simp only [isNameChar, Char.isLower, Bool.or_eq_true, Bool.and_eq_true, decide_eq_true_eq,
      beq_iff_eq] at h
    rcases h with ((⟨-, h⟩ | h) | rfl) | rfl
    · exact (UInt32.le_iff_toNat_le.mp h).trans_lt (by decide)
    · exact (Char.isDigit_iff_toNat.mp h).2.trans_lt (by decide)
    · decide
    · decide
  have hc := hcheck c.toNat hascii
  rw [Char.ofNat_toNat] at hc
  exact hc h

theorem names_wellFormed : ∀ u ∈ table, ∀ n ∈ u.names,
    n.toList.all isNameChar = true ∧ n.toList ≠ [] ∧ n.toList.head? ≠ some '_' ∧
      n.toList.reverse.head? ≠ some '_' := by decide +kernel

theorem eq_of_mem_names {u v : Measure} {n : String} (hu : u ∈ table) (hv : v ∈ table)
    (hnu : n ∈ u.names) (hnv : n ∈ v.names) : u = v := by
  by_contra hne
  have hdisjoint := (List.nodup_flatMap.mp nodup_names).2
  have hsymm : Std.Symm (Function.onFun List.Disjoint names) := ⟨fun _ _ h => h.symm⟩
  exact hdisjoint.forall hu hv hne hnu hnv

/-! ## Spellings -/

/-- `d` may be written for the character `c` of a name: any of three separators for an underscore,
and a letter in any case. -/
def StandsFor (d c : Char) : Prop :=
  c = '_' ∧ d ∈ ['_', ' ', '-'] ∨ c ≠ '_' ∧ Text.CaseOf c d

instance (d c : Char) : Decidable (StandsFor d c) :=
  inferInstanceAs (Decidable (c = '_' ∧ d ∈ ['_', ' ', '-'] ∨ c ≠ '_' ∧ Text.CaseOf c d))

theorem lowerChar_of_caseOf {c d : Char} (hc : isNameChar c = true) (h : Text.CaseOf c d) :
    Text.lowerChar d = [c] := by
  obtain ⟨hself, hcapital, -⟩ := normal_of_isNameChar hc
  rcases h with rfl | rfl | hd
  · exact hself
  · exact hcapital
  · exact hd

theorem StandsFor.normal {c d : Char} (hc : isNameChar c = true) (h : StandsFor d c) :
    (Text.lowerChar d).map underscore = [c] := by
  rcases h with ⟨rfl, hd⟩ | ⟨-, hd⟩
  · simp only [List.mem_cons, List.not_mem_nil, or_false] at hd
    rcases hd with rfl | rfl | rfl <;> decide
  · obtain ⟨-, -, hkeep, -⟩ := normal_of_isNameChar hc
    rw [lowerChar_of_caseOf hc hd, List.map_singleton, hkeep]

theorem StandsFor.isBlank_eq_false {c d : Char} (hc : isNameChar c = true) (hne : c ≠ '_')
    (h : StandsFor d c) : Text.isBlank d = false := by
  by_contra hblank
  have hd := lowerChar_of_caseOf hc (h.resolve_left fun h => hne h.1).2
  rw [Text.lowerChar_of_isBlank (Bool.eq_true_of_not_eq_false hblank)] at hd
  obtain rfl := List.head_eq_of_cons_eq hd
  exact hblank (normal_of_isNameChar hc).2.2.2.1

theorem isBlank_head?_eq_false {written name : List Char} (h : List.Forall₂ StandsFor written name)
    (hname : ∀ c ∈ name, isNameChar c = true) (hfirst : name.head? ≠ some '_') :
    ∀ d, written.head? = some d → Text.isBlank d = false := by
  cases h with
  | nil => exact fun d hd => nomatch hd
  | cons hdc _ =>
      rintro d ⟨⟩
      exact hdc.isBlank_eq_false (hname _ List.mem_cons_self) fun h => hfirst (congrArg some h)

theorem map_underscore_lower {written name : List Char} (h : List.Forall₂ StandsFor written name)
    (hname : ∀ c ∈ name, isNameChar c = true) : (Text.lower written).map underscore = name := by
  induction h with
  | nil => rfl
  | cons hdc _ ih =>
      obtain ⟨hc, hname⟩ := List.forall_mem_cons.mp hname
      rw [Text.lower, List.flatMap_cons, List.map_append, hdc.normal hc]
      exact congrArg _ (ih hname)

theorem key_around {u : Measure} (hu : u ∈ table) {n : String} (hn : n ∈ u.names)
    {before written after : List Char} (hbefore : ∀ c ∈ before, Text.isBlank c = true)
    (hafter : ∀ c ∈ after, Text.isBlank c = true)
    (hwritten : List.Forall₂ StandsFor written n.toList) :
    key (String.ofList (before ++ written ++ after)) = n := by
  obtain ⟨hchars, hne, hfirst, hlast⟩ := names_wellFormed u hu n hn
  have hchars := List.all_eq_true.mp hchars
  have hwrittenNe : written ≠ [] := by
    rintro rfl
    exact hne (List.forall₂_nil_left_iff.mp hwritten)
  have htrim : Text.trimBlanks (before ++ written ++ after) = written :=
    Text.trimBlanks_around hbefore hafter hwrittenNe
      (isBlank_head?_eq_false hwritten hchars hfirst)
      (isBlank_head?_eq_false (List.forall₂_reverse_iff.mpr hwritten)
        (fun c hc => hchars c (List.mem_reverse.mp hc)) hlast)
  rw [key, String.toList_ofList, htrim, map_underscore_lower hwritten hchars, String.ofList_toList]

/-! ## Looking up -/

/-- The normal form of a text, whatever the rule for the final sigma. -/
def normalForm (final : List Char → List Char → Bool) (s : String) : List Char :=
  (Text.lowerWith final [] (Text.trimBlanks s.toList)).map underscore

/-- Over characters of names the rule for the final sigma makes no difference. -/
theorem map_underscore_medial_iff {cs name : List Char}
    (hname : ∀ c ∈ name, isNameChar c = true) :
    (cs.map Text.medial).map underscore = name ↔ cs.map underscore = name := by
  induction cs generalizing name with
  | nil => rfl
  | cons d cs ih =>
      cases name with
      | nil => simp
      | cons c name =>
          obtain ⟨hc, hname⟩ := List.forall_mem_cons.mp hname
          obtain ⟨-, -, -, -, hmedial, hfinal⟩ := normal_of_isNameChar hc
          simp only [List.map_cons, List.cons.injEq]
          refine and_congr ?_ (ih hname)
          rw [Text.medial]
          split_ifs with hd
          · rw [hd]
            exact iff_of_false (Ne.symm hmedial) (Ne.symm hfinal)
          · rfl

theorem key_mem_names_iff (final : List Char → List Char → Bool) {u : Measure} (hu : u ∈ table)
    (s : String) : key s ∈ u.names ↔ ∃ n ∈ u.names, n.toList = normalForm final s := by
  have hkey : ∀ n ∈ u.names, key s = n ↔ n.toList = normalForm final s := by
    intro n hn
    have hchars := List.all_eq_true.mp (names_wellFormed u hu n hn).1
    rw [normalForm, eq_comm (a := n.toList), ← map_underscore_medial_iff hchars,
      Text.map_medial_lowerWith, map_underscore_medial_iff hchars, key, ← String.toList_inj,
      String.toList_ofList]
  constructor
  · exact fun h => ⟨_, h, (hkey _ h).mp rfl⟩
  · rintro ⟨n, hn, h⟩
    rwa [(hkey n hn).mpr h]

def lookupIn (units : List Measure) (name : String) : Except LookupFault Measure :=
  if (key name).isEmpty then .error .emptyName
  else (units.find? (·.names.contains (key name))).elim (.error (.unknown (Text.trim name))) .ok

theorem lookup_eq_lookupIn (name : String) : lookup name = lookupIn table name := by
  simp only [lookup, lookupIn]
  split_ifs
  · rfl
  · cases table.find? (·.names.contains (key name)) with
    | none => rfl
    | some m => rfl

theorem find?_names_eq_some_iff {units : List Measure} (hunits : units.Perm table) {k : String}
    {u : Measure} : units.find? (·.names.contains k) = some u ↔ u ∈ table ∧ k ∈ u.names := by
  constructor
  · intro h
    exact ⟨hunits.mem_iff.mp (List.mem_of_find?_eq_some h), by simpa using List.find?_some h⟩
  · rintro ⟨hu, hk⟩
    obtain ⟨v, hv⟩ : ∃ v, units.find? (·.names.contains k) = some v := by
      rw [← Option.isSome_iff_exists, List.find?_isSome]
      exact ⟨u, hunits.mem_iff.mpr hu, by simpa using hk⟩
    have hkv : k ∈ v.names := by simpa using List.find?_some hv
    rw [hv, eq_of_mem_names (hunits.mem_iff.mp (List.mem_of_find?_eq_some hv)) hu hkv hk]

theorem lookupIn_of_perm {units : List Measure} (hunits : units.Perm table) (s : String) :
    lookupIn units s = lookup s := by
  have hfind : units.find? (·.names.contains (key s)) = table.find? (·.names.contains (key s)) :=
    Option.ext fun u => (find?_names_eq_some_iff hunits).trans
      (find?_names_eq_some_iff (List.Perm.refl table)).symm
  rw [lookup_eq_lookupIn, lookupIn, lookupIn, hfind]

theorem isEmpty_key (s : String) : (key s).isEmpty = Text.isEmpty s := by
  rw [Bool.eq_iff_iff, String.isEmpty_iff, key, Text.isEmpty, List.all_eq_true,
    ← Text.trimBlanks_eq_nil_iff, ← Text.lower_eq_nil_iff, ← String.toList_inj,
    String.toList_ofList]
  exact List.map_eq_nil_iff

theorem lookup_eq_ok_iff {s : String} {u : Measure} :
    lookup s = .ok u ↔ u ∈ table ∧ key s ∈ u.names := by
  rw [lookup_eq_lookupIn, lookupIn]
  split_ifs with hempty
  · refine iff_of_false (fun h => nomatch h) ?_
    rintro ⟨hu, hk⟩
    refine (names_wellFormed u hu _ hk).2.1 ?_
    rw [String.isEmpty_iff.mp hempty]
    rfl
  · rw [← find?_names_eq_some_iff (List.Perm.refl table)]
    cases table.find? (·.names.contains (key s)) with
    | none => simp
    | some v => simp

theorem lookup_cases (s : String) : (∃ u, lookup s = .ok u) ∨
    lookup s = .error (if Text.isEmpty s then .emptyName else .unknown (Text.trim s)) := by
  rw [lookup_eq_lookupIn, lookupIn, isEmpty_key]
  split_ifs with hempty
  · exact Or.inr rfl
  · cases table.find? (·.names.contains (key s)) with
    | none => exact Or.inr rfl
    | some u => exact Or.inl ⟨u, rfl⟩

/-- **Looking up is spelling.**  A unit is found under a text exactly if the normal form of the text
is one of its names; that is so of one unit at most, and the order of the table does not matter.
Every name is found in every letter case, with any of three separators for each underscore, and
with any blanks around it.  Under any other text no unit is found, and the report notes the text
without its margins unless it is blank. -/
theorem lookup_finds_spellings :
    (∀ (final : List Char → List Char → Bool) (s : String) (u : Measure),
      lookup s = .ok u ↔ u ∈ table ∧ ∃ n ∈ u.names, n.toList = normalForm final s) ∧
    (∀ (final : List Char → List Char → Bool) (s : String), ∀ u ∈ table, ∀ v ∈ table,
      (∃ n ∈ u.names, n.toList = normalForm final s) →
      (∃ n ∈ v.names, n.toList = normalForm final s) → u = v) ∧
    (∀ units : List Measure, units.Perm table → ∀ s, lookupIn units s = lookup s) ∧
    (∀ u ∈ table, ∀ n ∈ u.names, ∀ before written after : List Char,
      (∀ c ∈ before, Text.isBlank c = true) → (∀ c ∈ after, Text.isBlank c = true) →
      List.Forall₂ StandsFor written n.toList →
      lookup (String.ofList (before ++ written ++ after)) = .ok u) ∧
    (∀ s : String, (∀ u, lookup s ≠ .ok u) → ∃ fault, lookup s = .error fault ∧
      fault.report.kind = .unit ∧
      fault.report.notes = if Text.isEmpty s then [] else [("unit", Text.trim s)]) := by
  refine ⟨?_, ?_, fun _ => lookupIn_of_perm, ?_, ?_⟩
  · intro final s u
    rw [lookup_eq_ok_iff]
    exact and_congr_right fun hu => key_mem_names_iff final hu s
  · intro final s u hu v hv hnu hnv
    exact eq_of_mem_names hu hv ((key_mem_names_iff final hu s).mpr hnu)
      ((key_mem_names_iff final hv s).mpr hnv)
  · intro u hu n hn before written after hbefore hafter hwritten
    rw [lookup_eq_ok_iff, key_around hu hn hbefore hafter hwritten]
    exact ⟨hu, hn⟩
  · intro s hs
    obtain ⟨u, hu⟩ | hs := lookup_cases s
    · exact absurd hu (hs u)
    · refine ⟨_, hs, ?_⟩
      split_ifs
      · exact ⟨rfl, rfl⟩
      · exact ⟨rfl, rfl⟩

/-- The kilowatt hour with the Kelvin sign for its first letter, a space for its underscore, and a
no-break space before it; and a unit that the table does not have. -/
theorem lookup_finds_spellings_kelvin_sign :
    (∃ u ∈ table, "kilowatt_hour" ∈ u.names ∧
      lookup (String.ofList ("\u00a0".toList ++ "\u212aILOWATT hour".toList ++ " ".toList)) =
        .ok u) ∧
    ∃ fault, lookup " furlong" = .error fault ∧ fault.report.notes = [("unit", "furlong")] := by
  have hkwh : lookup "kwh" = .ok (linear .energy "kilowatt_hour" 3.6e6
      ["kwh", "kw_h", "kilowatt_hours"]) := by with_unfolding_all rfl
  have hfurlong : ∀ u, lookup " furlong" ≠ .ok u := by
    intro u hu
    have hnone : lookup " furlong" = .error (.unknown "furlong") := by with_unfolding_all rfl
    exact nomatch hnone.symm.trans hu
  obtain ⟨-, -, -, hspelled, hother⟩ := lookup_finds_spellings
  constructor
  · have hu := (lookup_eq_ok_iff.mp hkwh).1
    exact ⟨_, hu, List.mem_cons_self, hspelled _ hu "kilowatt_hour" List.mem_cons_self _ _ _
      (List.all_eq_true.mp rfl) (List.all_eq_true.mp rfl) (by decide +kernel)⟩
  · obtain ⟨fault, hfault, -, hnotes⟩ := hother _ hfurlong
    exact ⟨fault, hfault, hnotes.trans (by decide +kernel)⟩

end Measure

end Reckoner
