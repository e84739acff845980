/-
# `Reckoner.Proofs.Settings.Beside` — how deep texts read side by side

Terms side by side do not nest, and the gauge is meant to read them so: `1 + 2 - 3` no
deeper than `1 + 2`.  But it forgets a power only when the parenthesis around it is closed,
and a power outside all parentheses never: `2**3 * 2**3 * 2**3` reads 3.

What a text reads behind an operator depends on the powers that the text before has left
open (`Closed.nestingDepth_beside`).  What follows from it, `beside_bound_iff`:

* two texts read no more than one above each of them exactly when the open powers of the
  left one and the surface of the right one leave it at that; and for every right one exactly
  when the left one has no open power, or a single one before an operator that is no sign;
* a run of texts reads no more than one above each of them and all their open powers, but
  with the powers it exceeds any limit, even if each text reads 1;
* a calculator that allows a depth of two and five characters more than its depth keeps out
  texts side by side though each has a level to spare.
-/
import Reckoner.Proofs.Settings.Surface

namespace Reckoner

/-! ## Two texts -/

def Operator.mark : Operator → Mark
  | .add | .subtract => .sign
  | .multiply | .divide | .modulo => .other
  | .power => .power

theorem marks_symbol (o : Operator) : marks (visible o.symbol) = [o.mark] := by
  cases o <;> rfl

section

variable {a b : String}

theorem Closed.marks_behind (hb : Closed b) (o : Operator) :
    marks (visible (o.symbol ++ b)) = o.mark :: marks (visible b) := by
  rw [visible_append, marks_append fun _ => hb.head_ne_star, marks_symbol]
  rfl

theorem Closed.marks_beside (ha : Closed a) (hb : Closed b) (o : Operator) :
    marks (visible (a ++ o.symbol ++ b)) = marks (visible a) ++ o.mark :: marks (visible b) := by
  rw [String.append_assoc, visible_append, marks_append fun h => absurd h ha.getLast_ne_star,
    hb.marks_behind]

theorem nestingDepth_symbol (o : Operator) :
    nestingDepth o.symbol = (({} : Gauge).step o.mark).reading := by
  rw [nestingDepth_eq, marks_symbol]
  exact Nat.max_zero _

theorem nestingDepth_symbol_le (o : Operator) : nestingDepth o.symbol ≤ 1 := by
  rw [nestingDepth_symbol]
  cases o <;> decide

/-- Two texts with an operator between them: the second is read behind the operator, and once more
outside its parentheses, with the open powers of the first. -/
theorem Closed.nestingDepth_beside (ha : Closed a) (hb : Closed b) (o : Operator) :
    nestingDepth (a ++ o.symbol ++ b) =
      max (nestingDepth a)
        (max (nestingDepth (o.symbol ++ b)) (openPowers a + surfaceDepth (o.symbol ++ b))) := by
  have hraised := (Gauge.raised_start (openPowers a)).max_peak (o.mark :: marks (visible b))
  have hcarried : openPowers a ≤
      ({ powers := openPowers a } : Gauge).peak (o.mark :: marks (visible b)) := by
    rw [Gauge.peak]
    cases o <;> simp only [Operator.mark, Gauge.step, Gauge.reading] <;> omega
  rw [nestingDepth_eq, nestingDepth_eq, nestingDepth_eq, surfaceDepth, ha.marks_beside hb,
    hb.marks_behind, Gauge.peak_append, ha.after_eq]
  omega

theorem Closed.nestingDepth_behind_le (hb : Closed b) (o : Operator) :
    nestingDepth (o.symbol ++ b) ≤ nestingDepth o.symbol + nestingDepth b := by
  have hsigns := Gauge.peak_signs_le 1 {} (marks (visible b))
  have hpowers := (Gauge.raised_start 1).max_peak (marks (visible b))
  have hsurface := Gauge.surface_le_peak {} (marks (visible b))
  rw [nestingDepth_symbol, nestingDepth_eq, nestingDepth_eq, hb.marks_behind, Gauge.peak]
  cases o with
  | add | subtract =>
      simp only [Operator.mark, Gauge.step, Gauge.reading, List.length_nil] at hsigns ⊢
      omega
  | multiply | divide | modulo =>
      simp only [Operator.mark, Gauge.step, Gauge.reading, List.length_nil]
      omega
  | power =>
      simp only [Operator.mark, Gauge.step, Gauge.reading, List.length_nil, Nat.zero_add]
      omega

theorem Closed.nestingDepth_beside_le (ha : Closed a) (hb : Closed b) (o : Operator) :
    nestingDepth (a ++ o.symbol ++ b) ≤
      max (nestingDepth a) (openPowers a + nestingDepth o.symbol + nestingDepth b) := by
  have hbehind := hb.nestingDepth_behind_le o
  have hsurface : surfaceDepth (o.symbol ++ b) ≤ nestingDepth (o.symbol ++ b) :=
    Gauge.surface_le_peak ..
  rw [ha.nestingDepth_beside hb]
  omega

theorem Operator.isFlat_mark (o : Operator) : o.mark.isFlat = true := by
  cases o <;> rfl

theorem Closed.join (ha : Closed a) (hb : Closed b) (o : Operator) :
    Closed (a ++ o.symbol ++ b) where
  first := by
    obtain ⟨c, cs, hcs, hc⟩ := ha.first
    refine ⟨c, cs ++ (visible o.symbol ++ visible b), ?_, hc⟩
    rw [String.append_assoc, visible_append, visible_append, hcs, List.cons_append]
  last := by
    obtain ⟨cs, c, hcs, hc⟩ := hb.last
    refine ⟨visible a ++ visible o.symbol ++ cs, c, ?_, hc⟩
    rw [visible_append, visible_append, hcs, ← List.append_assoc]
  grows := fun g => by
    rw [ha.marks_beside hb, Gauge.after_append, Gauge.after_cons]
    exact ((ha.grows g).trans (Gauge.grows_step o.isFlat_mark _)).trans (hb.grows _)

theorem Closed.openPowers_beside (ha : Closed a) (hb : Closed b) (o : Operator) :
    openPowers (a ++ o.symbol ++ b) = openPowers a + openPowers (o.symbol ++ b) := by
  have hraised := (Gauge.raised_start (openPowers a)).after (o.mark :: marks (visible b))
  have houter : (({} : Gauge).after (o.mark :: marks (visible b))).outer = [] :=
    ((Gauge.grows_step o.isFlat_mark {}).trans (hb.grows _)).outer_eq
  have hbehind : openPowers (o.symbol ++ b) =
      (({} : Gauge).after (o.mark :: marks (visible b))).powers := by
    rw [openPowers, hb.marks_behind]
  rw [hbehind, openPowers, ha.marks_beside hb, Gauge.after_append, ha.after_eq,
    hraised.eq_of_outer houter]

end

/-! ## Any number of texts -/

/-- Texts side by side, an operator before each but the first. -/
def sideBySide (first : String) (rest : List (Operator × String)) : String :=
  rest.foldl (fun text term => text ++ term.1.symbol ++ term.2) first

theorem Closed.nestingDepth_run_le {first : String} (h : Closed first)
    {rest : List (Operator × String)} {d : Nat}
    (hrest : ∀ t ∈ rest, Closed t.2 ∧ nestingDepth t.2 ≤ d) :
    openPowers first ≤ openPowers (sideBySide first rest) ∧
      nestingDepth (sideBySide first rest) ≤
        max (nestingDepth first) (1 + d + openPowers (sideBySide first rest)) := by
  induction rest generalizing first with
  | nil => exact ⟨Nat.le_refl _, Nat.le_max_left ..⟩
  | cons t rest ih =>
      obtain ⟨⟨ht, hd⟩, hrest⟩ := List.forall_mem_cons.mp hrest
      obtain ⟨hpowers, hrun⟩ := ih (h.join ht t.1) hrest
      have hcons : sideBySide first (t :: rest) =
        sideBySide (first ++ t.1.symbol ++ t.2) rest := rfl
      have hadd := h.openPowers_beside ht t.1
      have hjoin := h.nestingDepth_beside_le ht t.1
      have hsymbol := nestingDepth_symbol_le t.1
      rw [hcons]
      exact ⟨by omega, by omega⟩

theorem Closed.openPowers_run {first b : String} (h : Closed first) (hb : Closed b) (o : Operator)
    (n : Nat) :
    openPowers (sideBySide first (List.replicate n (o, b))) =
      openPowers first + n * openPowers (o.symbol ++ b) ∧
    Closed (sideBySide first (List.replicate n (o, b))) := by
  induction n generalizing first with
  | zero => exact ⟨by simp [sideBySide], h⟩
  | succ n ih =>
      obtain ⟨hpowers, hclosed⟩ := ih (h.join hb o)
      have hcons : sideBySide first (List.replicate (n + 1) (o, b)) =
        sideBySide (first ++ o.symbol ++ b) (List.replicate n (o, b)) := rfl
      rw [hcons, hpowers, h.openPowers_beside hb, Nat.succ_mul]
      exact ⟨by omega, hclosed⟩

/-! ## The shortest right side -/

/-- `n` minus signs before a name. -/
def signedName (n : Nat) : String := String.ofList (List.replicate n '-' ++ ['x'])

theorem length_signedName (n : Nat) : (signedName n).length = n + 1 := by
  rw [signedName, ← String.length_toList, String.toList_ofList]
  simp

theorem visible_signedName (n : Nat) : visible (signedName n) = List.replicate n '-' ++ ['x'] := by
  rw [visible, signedName, String.toList_ofList, List.filter_eq_self]
  intro c hc
  simp only [List.mem_append, List.mem_replicate, List.mem_singleton] at hc
  rcases hc with ⟨-, rfl⟩ | rfl <;> decide

theorem marks_signedName (n : Nat) :
    marks (visible (signedName n)) = List.replicate n .sign ++ [.other] := by
  rw [visible_signedName, marks_minuses]
  rfl

theorem exists_parse_signedName (n : Nat) : ∃ e, Expr.parse (signedName n) = .ok e := by
  have hs : Text.isEmpty (signedName n) = false := by
    rw [Bool.eq_false_iff]
    intro h
    rw [Text.isEmpty, signedName, String.toList_ofList] at h
    exact absurd (List.all_eq_true.mp h 'x' (by simp)) (by decide)
  have hname : (lex ['x']).map (·.token) = [.name "x"] := by decide +kernel
  obtain ⟨e, he⟩ := exists_derives_minuses n (.loosen (by decide) (.name "x"))
  refine ⟨e, (parse_eq_ok_iff hs).mpr ?_⟩
  rw [signedName, String.toList_ofList, lex_minuses, hname]
  exact ⟨he.of_rank_le (by decide), by simp⟩

theorem nestingDepth_signedName_le (n : Nat) : nestingDepth (signedName n) ≤ n := by
  have hpeak := Gauge.peak_minuses_le n 0 [.other]
  have hname : ({ signs := 0 + n } : Gauge).peak [.other] = 0 := rfl
  rw [nestingDepth_eq, marks_signedName]
  rwa [hname, Nat.zero_add, Nat.max_zero] at hpeak

theorem closed_signedName (n : Nat) : Closed (signedName n) := by
  obtain ⟨e, he⟩ := exists_parse_signedName n
  exact closed_of_parse he

theorem le_surfaceDepth_signedName (o : Operator) (n : Nat) :
    nestingDepth o.symbol + (n + 1) ≤ surfaceDepth (o.symbol ++ signedName (n + 1)) := by
  have houter : (({} : Gauge).step o.mark).outer = [] :=
    (Gauge.grows_step o.isFlat_mark {}).outer_eq
  have hsigns := Gauge.signs_le_surface n [.other] houter
  rw [nestingDepth_symbol, surfaceDepth, (closed_signedName _).marks_behind, marks_signedName,
    Gauge.surface]
  omega

/-! ## The law -/

/-- Only where the open powers meet the surface of the right side can two texts read too deep. -/
theorem Closed.beside_le_iff {a b : String} (ha : Closed a) (hb : Closed b) (o : Operator) :
    nestingDepth (a ++ o.symbol ++ b) ≤ 1 + max (nestingDepth a) (nestingDepth b) ↔
      openPowers a + surfaceDepth (o.symbol ++ b) ≤ 1 + max (nestingDepth a) (nestingDepth b) := by
  have hbehind := hb.nestingDepth_behind_le o
  have hsymbol := nestingDepth_symbol_le o
  rw [ha.nestingDepth_beside hb]
  omega

theorem Closed.forall_beside_le_iff {a : String} (ha : Closed a) (o : Operator) :
    (∀ b e, Expr.parse b = .ok e →
      nestingDepth (a ++ o.symbol ++ b) ≤ 1 + max (nestingDepth a) (nestingDepth b)) ↔
      openPowers a + nestingDepth o.symbol ≤ 1 := by
  constructor
  · intro h
    -- a longer run of signs than all that the left side reads
    obtain ⟨e, he⟩ := exists_parse_signedName (nestingDepth a + 1)
    have hbound := h _ e he
    have hdepth := nestingDepth_signedName_le (nestingDepth a + 1)
    have hsurface := le_surfaceDepth_signedName o (nestingDepth a)
    rw [ha.beside_le_iff (closed_of_parse he)] at hbound
    omega
  · intro h b e he
    have hle := ha.nestingDepth_beside_le (closed_of_parse he) o
    omega

/-- Where two texts with a level to spare read too deep side by side, the left one has an open
power, and the right one is as long as what is missing. -/
theorem Closed.length_of_lt {a b : String} (ha : Closed a) (hb : Closed b) {o : Operator} {d : Nat}
    (hda : nestingDepth a < d) (hdb : nestingDepth b < d)
    (hlt : d < nestingDepth (a ++ o.symbol ++ b)) :
    1 < d ∧ d + 5 ≤ (a ++ o.symbol ++ b).length := by
  have hbehind := hb.nestingDepth_behind_le o
  have hsymbol := nestingDepth_symbol_le o
  have hsurface : surfaceDepth (o.symbol ++ b) ≤ nestingDepth (o.symbol ++ b) :=
    Gauge.surface_le_peak ..
  have hpowers := ha.openPowers_le_nestingDepth
  have hright : surfaceDepth (o.symbol ++ b) ≤ b.length := by
    rw [surfaceDepth, hb.marks_behind]
    exact hb.surface_le_length _
  have hlength : 1 ≤ o.symbol.length := by cases o <;> decide
  rw [ha.nestingDepth_beside hb] at hlt
  have hleft := ha.length_of_openPowers (by omega)
  rw [String.length_append, String.length_append]
  exact ⟨by omega, by omega⟩

theorem closed_power : (∃ e, Expr.parse "x**x" = .ok e) ∧ nestingDepth "x**x" = 1 ∧
    openPowers "x**x" = 1 ∧ openPowers ("*" ++ "x**x") = 1 :=
  ⟨⟨_, by with_unfolding_all rfl⟩, by decide, by decide, by decide⟩

theorem exists_run_lt_nestingDepth (d : Nat) : ∃ first rest,
    (∀ t ∈ first :: rest.map Prod.snd, (∃ e, Expr.parse t = .ok e) ∧ nestingDepth t = 1) ∧
    (∀ t ∈ rest, t.1 ≠ .power) ∧ d < nestingDepth (sideBySide first rest) := by
  obtain ⟨⟨e, he⟩, hdepth, hfirst, hnext⟩ := closed_power
  have hclosed := closed_of_parse he
  obtain ⟨hpowers, hrun⟩ := hclosed.openPowers_run hclosed .multiply d
  refine ⟨"x**x", List.replicate d (.multiply, "x**x"), fun t ht => ?_, fun t ht => ?_, ?_⟩
  · rw [List.map_replicate, ← List.replicate_succ] at ht
    rw [List.eq_of_mem_replicate ht]
    exact ⟨⟨e, he⟩, hdepth⟩
  · rw [List.eq_of_mem_replicate ht]
    exact Operator.noConfusion
  · have hle := hrun.openPowers_le_nestingDepth
    have hsymbol : openPowers (Operator.multiply.symbol ++ "x**x") = 1 := hnext
    rw [hpowers, hfirst, hsymbol] at hle
    omega

theorem check_beside_iff (c : Settings) :
    (∀ a b e e' (o : Operator), Expr.parse a = .ok e → Expr.parse b = .ok e' → o ≠ .power →
      (a ++ o.symbol ++ b).length ≤ c.maxLength →
      1 + max (nestingDepth a) (nestingDepth b) ≤ c.maxDepth →
      c.check (a ++ o.symbol ++ b) = .ok ()) ↔
      c.maxDepth ≤ 1 ∨ c.maxLength < c.maxDepth + 5 := by
  constructor
  · intro h
    by_contra hroom
    obtain ⟨n, hn⟩ : ∃ n, c.maxDepth = n + 2 := ⟨c.maxDepth - 2, by omega⟩
    obtain ⟨⟨e, he⟩, hdepth, hpowers, -⟩ := closed_power
    obtain ⟨e', he'⟩ := exists_parse_signedName (n + 1)
    have hright := nestingDepth_signedName_le (n + 1)
    have hsurface := le_surfaceDepth_signedName .add n
    have hplus : nestingDepth Operator.add.symbol = 1 := nestingDepth_symbol .add
    have hlength : ("x**x" ++ Operator.add.symbol ++ signedName (n + 1)).length = n + 7 := by
      rw [String.length_append, String.length_append, length_signedName]
      exact Nat.add_comm ..
    have hcheck := h _ _ e e' .add he he' (by decide) (by omega) (by omega)
    have hle := (check_eq_ok_iff.mp hcheck).2
    rw [(closed_of_parse he).nestingDepth_beside (closed_of_parse he')] at hle
    omega
  · intro hroom a b e e' o ha hb _ hlength hdepth
    refine check_eq_ok_iff.mpr ⟨hlength, ?_⟩
    by_contra hdeep
    have hlong : 1 < c.maxDepth ∧ c.maxDepth + 5 ≤ (a ++ o.symbol ++ b).length :=
      (closed_of_parse ha).length_of_lt (closed_of_parse hb) (by omega) (by omega) (by omega)
    omega

/-- **What texts side by side read.**  Two texts with an operator between them read no more than one
above each of them exactly when the open powers of the left one and the surface of the right one,
read behind the operator, add up to no more.  That is so for every right one exactly when the open
powers of the left one and the operator count for at most one: before a sign there must be none.

Any number of texts side by side read no more than one above each of them and all their open powers;
without the powers there is no such bound, even if each text reads 1.

A calculator lets through every sum, difference, product or quotient of texts with a level to spare
exactly when such texts have no power, or when it has no room for a power and as many signs behind
it as it takes to exceed the depth. -/
theorem beside_bound_iff (c : Settings) :
    (∀ a b e e' (o : Operator), Expr.parse a = .ok e → Expr.parse b = .ok e' →
      (nestingDepth (a ++ o.symbol ++ b) ≤ 1 + max (nestingDepth a) (nestingDepth b) ↔
        openPowers a + surfaceDepth (o.symbol ++ b) ≤
          1 + max (nestingDepth a) (nestingDepth b))) ∧
    (∀ a e (o : Operator), Expr.parse a = .ok e →
      ((∀ b e', Expr.parse b = .ok e' →
          nestingDepth (a ++ o.symbol ++ b) ≤ 1 + max (nestingDepth a) (nestingDepth b)) ↔
        openPowers a + nestingDepth o.symbol ≤ 1)) ∧
    (∀ d first rest,
      (∀ t ∈ first :: rest.map Prod.snd, (∃ e, Expr.parse t = .ok e) ∧ nestingDepth t ≤ d) →
      nestingDepth (sideBySide first rest) ≤ 1 + d + openPowers (sideBySide first rest)) ∧
    (∀ d, ∃ first rest,
      (∀ t ∈ first :: rest.map Prod.snd, (∃ e, Expr.parse t = .ok e) ∧ nestingDepth t = 1) ∧
      (∀ t ∈ rest, t.1 ≠ .power) ∧ d < nestingDepth (sideBySide first rest)) ∧
    ((∀ a b e e' (o : Operator), Expr.parse a = .ok e → Expr.parse b = .ok e' → o ≠ .power →
        (a ++ o.symbol ++ b).length ≤ c.maxLength →
        1 + max (nestingDepth a) (nestingDepth b) ≤ c.maxDepth →
        c.check (a ++ o.symbol ++ b) = .ok ()) ↔
      c.maxDepth ≤ 1 ∨ c.maxLength < c.maxDepth + 5) := by
  refine ⟨fun a b e e' o ha hb => (closed_of_parse ha).beside_le_iff (closed_of_parse hb) o,
    fun a e o he => (closed_of_parse he).forall_beside_le_iff o, fun d first rest h => ?_,
    exists_run_lt_nestingDepth, check_beside_iff c⟩
  obtain ⟨⟨⟨e, he⟩, hfirst⟩, hrest⟩ := List.forall_mem_cons.mp h
  have hterms : ∀ t ∈ rest, Closed t.2 ∧ nestingDepth t.2 ≤ d := by
    intro t ht
    obtain ⟨⟨e', he'⟩, hdepth⟩ := hrest t.2 (List.mem_map_of_mem ht)
    exact ⟨closed_of_parse he', hdepth⟩
  obtain ⟨-, hrun⟩ := (closed_of_parse he).nestingDepth_run_le hterms
  omega

/-- Behind a power, `*` costs no more than one, whatever follows; but the standard limits keep out
some sums and products of texts with a level to spare. -/
theorem beside_bound_iff_standard :
    (∃ e, Expr.parse "x**x" = .ok e) ∧
    (∀ b e', Expr.parse b = .ok e' →
      nestingDepth ("x**x" ++ Operator.multiply.symbol ++ b) ≤
        1 + max (nestingDepth "x**x") (nestingDepth b)) ∧
    ¬ ∀ a b e e' (o : Operator), Expr.parse a = .ok e → Expr.parse b = .ok e' → o ≠ .power →
      (a ++ o.symbol ++ b).length ≤ 10000 → 1 + max (nestingDepth a) (nestingDepth b) ≤ 100 →
      ({} : Settings).check (a ++ o.symbol ++ b) = .ok () := by
  obtain ⟨⟨e, he⟩, -, hpowers, -⟩ := closed_power
  obtain ⟨-, hleft, -, -, hsettings⟩ := beside_bound_iff {}
  have htimes : nestingDepth Operator.multiply.symbol = 0 := nestingDepth_symbol .multiply
  refine ⟨⟨e, he⟩, (hleft "x**x" e .multiply he).mpr (by omega), fun h => ?_⟩
  exact absurd (hsettings.mp h) (by decide)

/-- A product of two towers of powers reads the powers of both. -/
theorem products_not_flat :
    (∃ e, Expr.parse "2**3**4" = .ok e) ∧ (∃ e, Expr.parse "5**6**7" = .ok e) ∧
    nestingDepth "2**3**4" = 2 ∧ nestingDepth "5**6**7" = 2 ∧
    ({ maxDepth := 3 } : Settings).check "2**3**4*5**6**7" = .error (.tooDeep 4 3) ∧
    ¬ ∀ a b e e' (o : Operator), Expr.parse a = .ok e → Expr.parse b = .ok e' → o ≠ .power →
      nestingDepth (a ++ o.symbol ++ b) ≤ 1 + max (nestingDepth a) (nestingDepth b) := by
  have hleft : ∃ e, Expr.parse "2**3**4" = .ok e := ⟨_, by with_unfolding_all rfl⟩
  have hright : ∃ e, Expr.parse "5**6**7" = .ok e := ⟨_, by with_unfolding_all rfl⟩
  have hdepth : nestingDepth "2**3**4" = 2 ∧ nestingDepth "5**6**7" = 2 := by decide +kernel
  have hcheck : ({ maxDepth := 3 } : Settings).check "2**3**4*5**6**7" = .error (.tooDeep 4 3) := by
    decide +kernel
  refine ⟨hleft, hright, hdepth.1, hdepth.2, hcheck, fun h => ?_⟩
  obtain ⟨e, he⟩ := hleft
  obtain ⟨e', he'⟩ := hright
  have hbound := h _ _ e e' .multiply he he' (by decide)
  rw [hdepth.1, hdepth.2] at hbound
  exact absurd hbound (by decide +kernel)

end Reckoner
