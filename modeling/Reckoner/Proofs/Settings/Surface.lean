/-
# `Reckoner.Proofs.Settings.Surface` — what the gauge carries on

At the end of a text that can be read the gauge has closed every parenthesis and ended
every run of signs, but it has not forgotten the powers outside the parentheses
(`Closed`).  Carried into what follows they raise the readings outside parentheses and
none inside (`Gauge.Raised`).  So all that matters of what follows is its *surface*, the
highest reading outside its parentheses (`Gauge.Raised.max_peak`).

Powers and signs cost characters: `Closed.length_of_openPowers` and
`Closed.surface_le_length` say how many.
-/
import Reckoner.Proofs.Grammar.Viable
import Reckoner.Proofs.Settings.Paths

namespace Reckoner

/-! ## Powers carried on -/

/-- `Gauge.Raised p g g'`: outside all parentheses, `g'` has counted `p` more powers than `g`. -/
inductive Gauge.Raised (p : Nat) : Gauge → Gauge → Prop where
  | outside (q s : Nat) : Raised p { powers := q, signs := s } { powers := p + q, signs := s }
  | inside (rs : List Nat) (r q s : Nat) :
      Raised p { outer := rs ++ [r], powers := q, signs := s }
        { outer := rs ++ [p + r], powers := q, signs := s }

/-- The highest reading outside parentheses on the way through some marks, the start left out. -/
def Gauge.surface (g : Gauge) : List Mark → Nat
  | [] => 0
  | m :: ms => max (if (g.step m).outer = [] then (g.step m).reading else 0) ((g.step m).surface ms)

section

variable {p : Nat} {g g' : Gauge}

theorem Gauge.raised_start (p : Nat) : Gauge.Raised p {} { powers := p } := .outside 0 0

theorem Gauge.Raised.step (h : Gauge.Raised p g g') (m : Mark) :
    Gauge.Raised p (g.step m) (g'.step m) := by
  cases h with
  | outside q s =>
      cases m with
      | openParen => exact .inside [] q 0 0
      | closeParen | other => exact .outside q 0
      | sign => exact .outside q (s + 1)
      | power => exact .outside (q + 1) 0
  | inside rs r q s =>
      cases m with
      | openParen => exact .inside (q :: rs) r 0 0
      | closeParen =>
          cases rs with
          | nil => exact .outside r 0
          | cons r' rs => exact .inside rs r r' 0
      | sign => exact .inside rs r q (s + 1)
      | power => exact .inside rs r (q + 1) 0
      | other => exact .inside rs r q 0

theorem Gauge.Raised.after (h : Gauge.Raised p g g') (ms : List Mark) :
    Gauge.Raised p (g.after ms) (g'.after ms) := by
  induction ms generalizing g g' with
  | nil => exact h
  | cons m ms ih => exact ih (h.step m)

theorem Gauge.Raised.eq_of_outer (h : Gauge.Raised p g g') (hg : g.outer = []) :
    g' = { g with powers := p + g.powers } := by
  cases h with
  | outside q s => rfl
  | inside rs r q s => exact absurd hg (by simp)

theorem Gauge.Raised.reading_eq (h : Gauge.Raised p g g') :
    g'.reading = if g.outer = [] then p + g.reading else g.reading := by
  cases h with
  | outside q s =>
      rw [if_pos rfl]
      simp only [Gauge.reading, List.length_nil]
      omega
  | inside rs r q s =>
      rw [if_neg (by simp)]
      simp only [Gauge.reading, List.length_append, List.length_singleton]

/-- Powers carried on raise the surface, and nothing else. -/
theorem Gauge.Raised.max_peak (h : Gauge.Raised p g g') (ms : List Mark) :
    max (g'.peak ms) p = max (g.peak ms) (p + g.surface ms) := by
  induction ms generalizing g g' with
  | nil => simp [Gauge.peak, Gauge.surface]
  | cons m ms ih =>
      have hrest := ih (h.step m)
      have hread := (h.step m).reading_eq
      rw [Gauge.peak, Gauge.peak, Gauge.surface]
      split at hread
      · rename_i houter
        rw [if_pos houter]
        omega
      · rename_i houter
        rw [if_neg houter]
        omega

end

/-! ## Readings outside parentheses -/

theorem Gauge.surface_le_peak (g : Gauge) (ms : List Mark) : g.surface ms ≤ g.peak ms := by
  induction ms generalizing g with
  | nil => exact Nat.le_refl 0
  | cons m ms ih =>
      have := ih (g.step m)
      rw [Gauge.surface, Gauge.peak]
      split <;> omega

theorem Gauge.signs_le_surface (n : Nat) (ms : List Mark) {g : Gauge} (hg : g.outer = []) :
    g.reading + (n + 1) ≤ g.surface (List.replicate (n + 1) .sign ++ ms) := by
  induction n generalizing g with
  | zero =>
      simp only [List.replicate, List.cons_append, List.nil_append, Gauge.surface, Gauge.step, hg,
        if_true, Gauge.reading]
      omega
  | succ n ih =>
      have := ih (g := g.step .sign) hg
      rw [List.replicate_succ, List.cons_append, Gauge.surface]
      simp only [Gauge.step, Gauge.reading] at this ⊢
      omega

theorem Gauge.peak_signs_le (k : Nat) (g : Gauge) (ms : List Mark) :
    ({ g with signs := g.signs + k } : Gauge).peak ms ≤ g.peak ms + k := by
  induction ms generalizing g with
  | nil => exact Nat.zero_le _
  | cons m ms ih =>
      cases m with
      | sign =>
          have hrest := ih (g.step .sign)
          have hcomm : g.signs + k + 1 = g.signs + 1 + k := Nat.add_right_comm ..
          simp only [Gauge.peak, Gauge.step, Gauge.reading, hcomm] at hrest ⊢
          omega
      -- any other mark ends the run, however long it was
      | openParen | closeParen | power | other => exact Nat.le_add_right _ k

/-! ## What readings cost -/

def Gauge.total (g : Gauge) : Nat := g.powers + g.outer.foldr (· + ·) 0

theorem Gauge.reading_of_outer {g : Gauge} (hg : g.outer = []) : g.reading = g.signs + g.total := by
  simp only [Gauge.reading, Gauge.total, hg, List.length_nil, List.foldr_nil]
  omega

theorem Gauge.total_step_le (g : Gauge) (m : Mark) :
    (g.step m).total ≤ g.total + if m = .power then 1 else 0 := by
  obtain ⟨outer, powers, signs⟩ := g
  cases m with
  | openParen => simp [Gauge.step, Gauge.total]
  | closeParen => cases outer <;> simp [Gauge.step, Gauge.total]
  | sign | other => simp [Gauge.step, Gauge.total]
  | power =>
      simp only [Gauge.step, Gauge.total, if_true]
      omega

theorem Gauge.total_after_le (g : Gauge) (ms : List Mark) :
    (g.after ms).total ≤ g.total + ms.count .power := by
  induction ms generalizing g with
  | nil => exact Nat.le_refl _
  | cons m ms ih =>
      have hstep := g.total_step_le m
      have hrest := ih (g.step m)
      rw [Gauge.after_cons, List.count_cons]
      simp only [beq_iff_eq]
      omega

theorem Gauge.signs_step (g : Gauge) {m : Mark} (hm : m ≠ .sign) : (g.step m).signs = 0 := by
  cases m with
  | sign => exact absurd rfl hm
  | closeParen =>
      rw [Gauge.step]
      split <;> rfl
  | openParen | power | other => rfl

theorem Gauge.signs_add_total_step_le (g : Gauge) (m : Mark) :
    (g.step m).signs + (g.step m).total ≤ g.signs + g.total + 1 := by
  have htotal := g.total_step_le m
  by_cases hm : m = .sign
  · subst hm
    exact Nat.le_of_eq (Nat.add_right_comm ..)
  · have hsigns := g.signs_step hm
    split at htotal <;> omega

/-- Each mark but a last one that is neither sign nor power raises the surface by at most one. -/
theorem Gauge.surface_concat_le (g : Gauge) (ms : List Mark) {m : Mark} (hsign : m ≠ .sign)
    (hpower : m ≠ .power) : g.surface (ms ++ [m]) ≤ g.signs + g.total + ms.length := by
  induction ms generalizing g with
  | nil =>
      have htotal := g.total_step_le m
      rw [if_neg hpower] at htotal
      rw [List.nil_append, Gauge.surface, Gauge.surface]
      split
      · rename_i houter
        rw [Gauge.reading_of_outer houter, g.signs_step hsign]
        omega
      · omega
  | cons n ms ih =>
      have hrest := ih (g.step n)
      have hstep := g.signs_add_total_step_le n
      rw [List.cons_append, Gauge.surface, List.length_cons]
      split
      · rename_i houter
        rw [Gauge.reading_of_outer houter]
        omega
      · omega

theorem length_eq_marks (cs : List Char) :
    cs.length = (marks cs).length + (marks cs).count .power := by
  induction cs using marks.induct with
  | case1 => rfl
  | case2 cs ih =>
      rw [marks, List.length_cons, List.length_cons, List.length_cons, List.count_cons_self]
      omega
  | case3 cs ih | case4 cs ih | case5 cs ih | case6 cs ih =>
      rw [marks, List.length_cons, List.length_cons, List.count_cons_of_ne (by decide)]
      omega
  | case7 c cs hstar h₁ h₂ h₃ h₄ ih =>
      rw [marks_cons_other (fun r hc hr => hstar r hc hr) ⟨h₁, h₂, h₃, h₄⟩, List.length_cons,
        List.length_cons, List.count_cons_of_ne (by decide)]
      omega

/-! ## Closed texts -/

/-- The characters of a text that are no blanks. -/
def visible (s : String) : List Char := s.toList.filter fun c => !Text.isBlank c

/-- The powers of a text outside its parentheses. -/
def openPowers (s : String) : Nat := (({} : Gauge).after (marks (visible s))).powers

/-- The highest reading outside the parentheses of a text. -/
def surfaceDepth (s : String) : Nat := ({} : Gauge).surface (marks (visible s))

theorem nestingDepth_eq (s : String) : nestingDepth s = ({} : Gauge).peak (marks (visible s)) := rfl

theorem visible_append (s t : String) : visible (s ++ t) = visible s ++ visible t := by
  rw [visible, String.toList_append, List.filter_append]
  rfl

theorem length_visible_le (s : String) : (visible s).length ≤ s.length := by
  rw [← String.length_toList]
  exact List.length_filter_le ..

/-- The text leaves nothing but its powers to what follows, and no star at either end can become
part of a power by what stands next to it. -/
structure Closed (s : String) : Prop where
  first : ∃ c cs, visible s = c :: cs ∧ c ≠ '*'
  last : ∃ cs c, visible s = cs ++ [c] ∧ c ∉ ['+', '-', '*']
  /-- It closes the parentheses that it opens. -/
  grows : ∀ g : Gauge, g.Grows (g.after (marks (visible s)))

theorem Closed.head_ne_star {s : String} (h : Closed s) : (visible s).head? ≠ some '*' := by
  obtain ⟨c, cs, hcs, hc⟩ := h.first
  rw [hcs]
  exact fun hstar => hc (Option.some.inj hstar)

theorem Closed.getLast_ne_star {s : String} (h : Closed s) : (visible s).getLast? ≠ some '*' := by
  obtain ⟨cs, c, hcs, hc⟩ := h.last
  rw [hcs, List.getLast?_concat]
  intro hstar
  rw [Option.some.inj hstar] at hc
  exact hc (by decide)

theorem exists_marks_singleton (c : Char) :
    ∃ m, marks [c] = [m] ∧ m ≠ .power ∧ (m = .sign → c = '+' ∨ c = '-') := by
  by_cases hopen : c = '('
  · subst hopen
    exact ⟨.openParen, rfl, by decide, by decide⟩
  by_cases hclose : c = ')'
  · subst hclose
    exact ⟨.closeParen, rfl, by decide, by decide⟩
  by_cases hplus : c = '+'
  · exact ⟨.sign, by rw [hplus]; rfl, by decide, fun _ => Or.inl hplus⟩
  by_cases hminus : c = '-'
  · exact ⟨.sign, by rw [hminus]; rfl, by decide, fun _ => Or.inr hminus⟩
  have hmarks : marks [c] = .other :: marks [] :=
    marks_cons_other (fun r _ h => nomatch h) ⟨hopen, hclose, hplus, hminus⟩
  exact ⟨.other, hmarks, by decide, fun h => absurd h (by decide)⟩

theorem Closed.exists_first_mark {s : String} (h : Closed s) :
    ∃ m ms, marks (visible s) = m :: ms ∧ m ≠ .power := by
  obtain ⟨c, cs, hcs, hc⟩ := h.first
  obtain ⟨m, hm, hpower, -⟩ := exists_marks_singleton c
  have hcut : [c].getLast? = some '*' → cs.head? ≠ some '*' := fun h => absurd (by simpa using h) hc
  have happend := marks_append hcut
  rw [hm, List.singleton_append, List.singleton_append] at happend
  exact ⟨m, marks cs, by rw [hcs, happend], hpower⟩

theorem Closed.exists_last_mark {s : String} (h : Closed s) :
    ∃ ms m, marks (visible s) = ms ++ [m] ∧ m ≠ .sign ∧ m ≠ .power := by
  obtain ⟨cs, c, hcs, hc⟩ := h.last
  simp only [List.mem_cons, List.not_mem_nil, or_false, not_or] at hc
  obtain ⟨hplus, hminus, hstar⟩ := hc
  obtain ⟨m, hm, hpower, hsign⟩ := exists_marks_singleton c
  have hcut : cs.getLast? = some '*' → [c].head? ≠ some '*' := fun _ h =>
    absurd (by simpa using h) hstar
  refine ⟨marks cs, m, by rw [hcs, marks_append hcut, hm], fun h => ?_, hpower⟩
  exact (hsign h).elim hplus hminus

theorem Closed.after_eq {s : String} (h : Closed s) :
    ({} : Gauge).after (marks (visible s)) = { powers := openPowers s } := by
  obtain ⟨ms, m, hm, hsign, -⟩ := h.exists_last_mark
  have hsigns : (({} : Gauge).after (marks (visible s))).signs = 0 := by
    rw [hm, Gauge.after_append]
    exact Gauge.signs_step _ hsign
  have houter := (h.grows {}).outer_eq
  rw [openPowers]
  revert hsigns houter
  cases ({} : Gauge).after (marks (visible s)) with
  | mk outer powers signs =>
      rintro rfl rfl
      rfl

theorem Closed.openPowers_le_nestingDepth {s : String} (h : Closed s) :
    openPowers s ≤ nestingDepth s := by
  have hafter := h.after_eq
  obtain ⟨ms, m, hm, -⟩ := h.exists_last_mark
  rw [hm, Gauge.after_append] at hafter
  have hstep : (({} : Gauge).after ms).step m = { powers := openPowers s } := hafter
  rw [nestingDepth_eq, hm, Gauge.peak_append, Gauge.peak, hstep]
  simp only [Gauge.reading]
  omega

/-! ### Lengths -/

/-- Around the powers that it counts, a closed text has a first and a last mark. -/
theorem Closed.count_power_add_two_le {s : String} (h : Closed s)
    (hpos : 0 < (marks (visible s)).count .power) :
    (marks (visible s)).count .power + 2 ≤ (marks (visible s)).length := by
  obtain ⟨m, ms, hm, hpower⟩ := h.exists_first_mark
  obtain ⟨ns, n, hn, -, hpower'⟩ := h.exists_last_mark
  rcases List.eq_nil_or_concat ms with rfl | ⟨ms, n', rfl⟩
  · rw [hm, List.count_singleton, if_neg (by simpa using hpower)] at hpos
    exact absurd hpos (Nat.lt_irrefl 0)
  · rw [List.concat_eq_append, ← List.cons_append] at hm
    obtain rfl : n' = n := by
      have hlast := congrArg List.getLast? (hm.symm.trans hn)
      rwa [List.getLast?_concat, List.getLast?_concat, Option.some.injEq] at hlast
    have hle := List.count_le_length (a := Mark.power) (l := ms)
    rw [hm, List.count_append, List.count_cons_of_ne hpower, List.count_singleton,
      if_neg (by simpa using hpower'), List.length_append, List.length_cons, List.length_singleton]
    omega

theorem Closed.length_of_openPowers {s : String} (h : Closed s) (hpos : 0 < openPowers s) :
    2 * openPowers s + 2 ≤ s.length := by
  have hcount : openPowers s ≤ (marks (visible s)).count .power := by
    have htotal := Gauge.total_after_le {} (marks (visible s))
    rw [h.after_eq] at htotal
    simpa [Gauge.total] using htotal
  have htwo := h.count_power_add_two_le (by omega)
  have hmarks := length_eq_marks (visible s)
  have hlength := length_visible_le s
  omega

/-- With a mark in front, the surface of a closed text is no higher than the text is long. -/
theorem Closed.surface_le_length {s : String} (h : Closed s) (m : Mark) :
    ({} : Gauge).surface (m :: marks (visible s)) ≤ s.length := by
  obtain ⟨ms, n, hn, hsign, hpower⟩ := h.exists_last_mark
  have hsurface := Gauge.surface_concat_le {} (m :: ms) hsign hpower
  have hmarks := length_eq_marks (visible s)
  have hlength := length_visible_le s
  have hzero : ({} : Gauge).signs + ({} : Gauge).total = 0 := rfl
  rw [List.cons_append, ← hn, List.length_cons, hzero] at hsurface
  rw [hn, List.length_append, List.length_singleton] at hmarks
  omega

/-! ### Texts that can be read -/

theorem Decimal.IsDigits.exists_last {ds : List Char} (h : IsDigits ds) :
    ∃ cs c, ds = cs ++ [c] ∧ c.isDigit = true := by
  obtain ⟨cs, c, hds⟩ := (List.eq_nil_or_concat ds).resolve_left h.1
  rw [List.concat_eq_append] at hds
  exact ⟨cs, c, hds, h.2 c (by simp [hds])⟩

theorem Decimal.Literal.WellFormed.exists_last {l : Literal} (hl : l.WellFormed) :
    ∃ cs c, l.text = cs ++ [c] ∧ c.isDigit = true := by
  cases hexponent : l.exponent with
  | some x =>
      obtain ⟨cs, c, hcs, hc⟩ := (hl.exponent x hexponent).digits.exists_last
      refine ⟨l.whole ++ fractionText l.fraction ++ (x.mark :: x.sign ++ cs), c, ?_, hc⟩
      simp [Literal.text, hexponent, Exponent.text, hcs]
  | none =>
      have htext : l.text = l.whole ++ fractionText l.fraction := by simp [Literal.text, hexponent]
      by_cases hfraction : l.fraction = []
      · obtain ⟨cs, c, hcs, hc⟩ := hl.whole.exists_last
        exact ⟨cs, c, by rw [htext, hfraction, hcs, fractionText, List.append_nil], hc⟩
      · obtain ⟨cs, c, hcs, hc⟩ := Decimal.IsDigits.exists_last ⟨hfraction, hl.fraction⟩
        refine ⟨l.whole ++ '.' :: cs, c, ?_, hc⟩
        have hpoint := fractionText_append hfraction []
        rw [List.append_nil, List.append_nil] at hpoint
        rw [htext, hpoint, hcs, List.append_assoc, List.cons_append]

theorem Token.WellFormed.exists_last {t : Token} (ht : t.WellFormed)
    (hends : t.endsOperand = true) :
    ∃ cs c, t.text = cs ++ [c] ∧ c ∉ ['+', '-', '*'] := by
  have hbeyond : ∀ c : Char, 48 ≤ c.toNat → c ∉ ['+', '-', '*'] := by
    intro c hc hmem
    simp only [List.mem_cons, List.not_mem_nil, or_false] at hmem
    rcases hmem with rfl | rfl | rfl <;> exact absurd hc (by decide)
  cases t with
  | number l =>
      obtain ⟨cs, c, htext, hc⟩ := Decimal.Literal.WellFormed.exists_last ht
      exact ⟨cs, c, htext, hbeyond c (toNat_of_isDigit hc).1⟩
  | name x =>
      obtain ⟨cs, c, hx⟩ := List.eq_nil_or_concat x.toList |>.resolve_left ht.text_ne_nil
      rw [List.concat_eq_append] at hx
      exact ⟨cs, c, hx, hbeyond c (Token.WellFormed.toNat_of_mem_name ht (by simp [hx])).1⟩
  | closeParen => exact ⟨[], ')', rfl, by decide⟩
  | operator o | openParen | comma | stray c => exact absurd hends Bool.false_ne_true

theorem closed_of_parse {s : String} {e : Expr} (h : Expr.parse s = .ok e) : Closed s := by
  obtain ⟨ts, hts, hderives, -⟩ := exists_tokens_of_parse h
  have hw := (munches_iff.mp hts).2
  obtain ⟨q, hq, -⟩ := hderives.after (admits_nil .sum)
  have hends := hderives.balanced.2
  have hvisible : visible s = ts.flatMap Token.text := hts.filter_eq
  have hmarks := State.marks_after hq hw
  refine ⟨?_, ?_, ?_⟩
  · have hhead := State.head_ne_star_of_due hq hw
    rw [← hvisible] at hhead
    obtain ⟨t, us, rfl⟩ := List.exists_cons_of_ne_nil (ne_nil_of_endsOperand hends)
    obtain ⟨c, cs, hc⟩ := List.exists_cons_of_ne_nil (hw t List.mem_cons_self).text_ne_nil
    rw [List.flatMap_cons, hc] at hvisible
    rw [hvisible] at hhead ⊢
    exact ⟨c, _, rfl, fun hstar => hhead (by rw [hstar]; rfl)⟩
  · obtain ⟨us, t, hconcat⟩ := (List.eq_nil_or_concat ts).resolve_left (ne_nil_of_endsOperand hends)
    rw [List.concat_eq_append] at hconcat
    subst hconcat
    rw [endsOperand_snoc] at hends
    obtain ⟨cs, c, htext, hc⟩ := (hw t (by simp)).exists_last hends
    refine ⟨us.flatMap Token.text ++ cs, c, ?_, hc⟩
    rw [hvisible, List.flatMap_append, List.flatMap_singleton, htext, List.append_assoc]
  · rw [hvisible, hmarks]
    exact hderives.grows hw

end Reckoner
