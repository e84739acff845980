/-
# `Reckoner.Proofs.Settings.Paths` — how deep a tree can be whose text reads `d`

The gauge is no bound on the nesting of a tree, but the nesting has a bound in terms
of the reading.  With `d` as the highest reading, a path from the root takes fewer
than `(d + 3).choose 3` steps into a sign's operand, an exponent or an argument.

Where the number comes from: between two parentheses a path passes runs of signs with
a power after each.  A run stands in the text as it stands on the path, so the gauge
sees all of it, together with the powers before it and the open parentheses.  If these
leave room for `q` more, the run has at most `q` signs, the run after the next power
one less, and so on: `Gauge.room` adds them up, first over the runs of one level of
parentheses and then over the levels.

`Derives.recursion_le_room` is an induction over the phrase.  What it needs of the
gauge is that a phrase closes the parentheses it opens and forgets no power
(`Gauge.Grows`).
-/
import Mathlib.Data.Nat.Choose.Basic
import Reckoner.Proofs.Grammar.Depth
import Reckoner.Proofs.Settings.Marks
import Reckoner.Proofs.Settings.Nesting

namespace Reckoner

/-! ## Paths -/

/-- A step from a node to one of its children. -/
inductive Turn where
  | operand
  | left (o : Operator)
  | right (o : Operator)
  | argument (i : Nat)
  deriving DecidableEq, Repr

/-- The step nests: it goes into a sign's operand, an exponent or an argument. -/
def Turn.nests : Turn → Bool
  | .operand | .right .power | .argument _ => true
  | .left _ | .right _ => false

/-- `Leads e path e'`: the steps of `path` go from `e` down to `e'`. -/
inductive Leads : Expr → List Turn → Expr → Prop where
  | here (e : Expr) : Leads e [] e
  | operand (s : Sign) {e e' : Expr} {path : List Turn} :
      Leads e path e' → Leads (.signed s e) (.operand :: path) e'
  | left (o : Operator) {l r e' : Expr} {path : List Turn} :
      Leads l path e' → Leads (.binary o l r) (.left o :: path) e'
  | right (o : Operator) {l r e' : Expr} {path : List Turn} :
      Leads r path e' → Leads (.binary o l r) (.right o :: path) e'
  | argument (f : String) {es : List Expr} {i : Nat} {e e' : Expr} {path : List Turn} :
      es[i]? = some e → Leads e path e' → Leads (.call f es) (.argument i :: path) e'

theorem Expr.recursion_le_recursionList {es : List Expr} {e : Expr} (h : e ∈ es) :
    e.recursion ≤ Expr.recursionList es := by
  induction es with
  | nil => exact nomatch h
  | cons d ds ih =>
      rw [Expr.recursionList]
      rcases List.mem_cons.mp h with rfl | h
      · exact Nat.le_max_left ..
      · exact Nat.le_trans (ih h) (Nat.le_max_right ..)

theorem Turn.countP_right (o : Operator) (l : Expr) (path : List Turn) :
    (Turn.right o :: path).countP Turn.nests =
      (Frame.binary o l).load + path.countP Turn.nests := by
  cases o <;> simp [Turn.nests, Frame.load, List.countP_cons, Nat.add_comm]

theorem Leads.countP_le_recursion {e e' : Expr} {path : List Turn} (h : Leads e path e') :
    path.countP Turn.nests ≤ e.recursion := by
  induction h with
  | here e => exact Nat.zero_le _
  | operand s _ ih =>
      rw [List.countP_cons_of_pos rfl, Expr.recursion]
      omega
  | left o _ ih =>
      rw [List.countP_cons_of_neg Bool.false_ne_true, Expr.recursion_binary]
      exact Nat.le_trans ih (Nat.le_max_left ..)
  | @right o l _ _ _ _ ih =>
      rw [Turn.countP_right o l, Expr.recursion_binary]
      omega
  | argument f hi _ ih =>
      have hle := Expr.recursion_le_recursionList (List.mem_of_getElem? hi)
      rw [List.countP_cons_of_pos rfl, Expr.recursion]
      omega

/-! ## The gauge behind a phrase -/

def Gauge.after (g : Gauge) (ms : List Mark) : Gauge := ms.foldl Gauge.step g

theorem Gauge.after_cons (g : Gauge) (m : Mark) (ms : List Mark) :
    g.after (m :: ms) = (g.step m).after ms := rfl

theorem Gauge.after_append (g : Gauge) (ms ns : List Mark) :
    g.after (ms ++ ns) = (g.after ms).after ns := List.foldl_append

theorem Gauge.peak_append (g : Gauge) (ms ns : List Mark) :
    g.peak (ms ++ ns) = max (g.peak ms) ((g.after ms).peak ns) := by
  induction ms generalizing g with
  | nil => exact (Nat.zero_max _).symm
  | cons m ms ih => rw [List.cons_append, Gauge.peak, Gauge.peak, ih, Nat.max_assoc,
      Gauge.after_cons]

theorem Gauge.peak_cons_le_iff {g : Gauge} {m : Mark} {ms : List Mark} {d : Nat} :
    g.peak (m :: ms) ≤ d ↔ (g.step m).reading ≤ d ∧ (g.step m).peak ms ≤ d := by
  rw [Gauge.peak, Nat.max_le]

theorem Gauge.peak_append_le_iff {g : Gauge} {ms ns : List Mark} {d : Nat} :
    g.peak (ms ++ ns) ≤ d ↔ g.peak ms ≤ d ∧ (g.after ms).peak ns ≤ d := by
  rw [Gauge.peak_append, Nat.max_le]

/-- From `g` to `g'` no parenthesis has been opened for good or closed, and no power forgotten. -/
structure Gauge.Grows (g g' : Gauge) : Prop where
  outer_eq : g'.outer = g.outer
  powers_le : g.powers ≤ g'.powers

theorem Gauge.Grows.refl (g : Gauge) : g.Grows g := ⟨rfl, Nat.le_refl _⟩

theorem Gauge.Grows.trans {g g' g'' : Gauge} (h : g.Grows g') (h' : g'.Grows g'') : g.Grows g'' :=
  ⟨h'.outer_eq.trans h.outer_eq, Nat.le_trans h.powers_le h'.powers_le⟩

def Mark.isFlat : Mark → Bool
  | .openParen | .closeParen => false
  | .sign | .power | .other => true

theorem Gauge.grows_step {m : Mark} (hm : m.isFlat = true) (g : Gauge) : g.Grows (g.step m) := by
  cases m with
  | openParen | closeParen => exact nomatch hm
  | sign | other => exact ⟨rfl, Nat.le_refl _⟩
  | power => exact ⟨rfl, Nat.le_succ _⟩

theorem Gauge.grows_after {ms : List Mark} (h : ∀ m ∈ ms, m.isFlat = true) (g : Gauge) :
    g.Grows (g.after ms) := by
  induction ms generalizing g with
  | nil => exact .refl g
  | cons m ms ih =>
      have hm := Gauge.grows_step (h m List.mem_cons_self) g
      exact hm.trans (ih (fun n hn => h n (List.mem_cons_of_mem _ hn)) _)

theorem Gauge.Grows.closed {g g' : Gauge} (h : (g.step .openParen).Grows g') :
    g.Grows (g'.step .closeParen) := by
  obtain ⟨outer, powers, signs⟩ := g'
  obtain ⟨houter, -⟩ := h
  obtain rfl : outer = g.powers :: g.outer := houter
  exact ⟨rfl, Nat.le_refl _⟩

/-! ### Marks of phrases -/

theorem marks_parenthesised (ts : List Token) :
    (Token.openParen :: (ts ++ [.closeParen])).flatMap Token.marks =
      .openParen :: (ts.flatMap Token.marks ++ [.closeParen]) := by
  rw [List.flatMap_cons, List.flatMap_append, List.flatMap_singleton]
  rfl

theorem Gauge.grows_parenthesised {ts : List Token}
    (h : ∀ g : Gauge, g.Grows (g.after (ts.flatMap Token.marks))) (g : Gauge) :
    g.Grows (g.after ((Token.openParen :: (ts ++ [.closeParen])).flatMap Token.marks)) := by
  rw [marks_parenthesised, Gauge.after_cons, Gauge.after_append]
  exact (h (g.step .openParen)).closed

theorem Gauge.peak_parenthesised_le {g : Gauge} {ts : List Token} {d : Nat}
    (h : g.peak ((Token.openParen :: (ts ++ [.closeParen])).flatMap Token.marks) ≤ d) :
    (g.step .openParen).reading ≤ d ∧ (g.step .openParen).peak (ts.flatMap Token.marks) ≤ d := by
  rw [marks_parenthesised, Gauge.peak_cons_le_iff, Gauge.peak_append_le_iff] at h
  exact ⟨h.1, h.2.1⟩

theorem isFlat_of_mem_marks {cs : List Char} (h : ∀ c ∈ cs, c ≠ '(' ∧ c ≠ ')') :
    ∀ m ∈ marks cs, m.isFlat = true := by
  induction cs using marks.induct with
  | case1 => exact List.forall_mem_nil _
  | case2 cs ih =>
      have hcs := ih fun c hc => h c (List.mem_cons_of_mem _ (List.mem_cons_of_mem _ hc))
      rw [marks]
      exact List.forall_mem_cons.mpr ⟨rfl, hcs⟩
  | case3 cs => exact absurd rfl (h '(' List.mem_cons_self).1
  | case4 cs => exact absurd rfl (h ')' List.mem_cons_self).2
  | case5 cs ih | case6 cs ih =>
      have hcs := ih fun c hc => h c (List.mem_cons_of_mem _ hc)
      rw [marks]
      exact List.forall_mem_cons.mpr ⟨rfl, hcs⟩
  | case7 c cs hstar h₁ h₂ h₃ h₄ ih =>
      have hcs := ih fun d hd => h d (List.mem_cons_of_mem _ hd)
      rw [marks_cons_other (fun r hc hr => hstar r hc hr) ⟨h₁, h₂, h₃, h₄⟩]
      exact List.forall_mem_cons.mpr ⟨rfl, hcs⟩

def Token.isFlat : Token → Bool
  | .openParen | .closeParen => false
  | .number _ | .name _ | .operator _ | .comma | .stray _ => true

theorem Token.WellFormed.isFlat_marks {t : Token} (ht : t.WellFormed) (hflat : t.isFlat = true) :
    ∀ m ∈ t.marks, m.isFlat = true := by
  have hbeyond : ∀ c : Char, 43 ≤ c.toNat → c ≠ '(' ∧ c ≠ ')' := by
    intro c hc
    constructor
    · rintro rfl
      exact absurd hc (by decide)
    · rintro rfl
      exact absurd hc (by decide)
  cases t with
  | number l =>
      apply isFlat_of_mem_marks
      intro c hc
      exact hbeyond c (Decimal.Literal.WellFormed.toNat_of_mem_text ht hc).1
  | name x =>
      apply isFlat_of_mem_marks
      intro c hc
      have := (Token.WellFormed.toNat_of_mem_name ht hc).1
      exact hbeyond c (by omega)
  | operator o => cases o <;> exact List.forall_mem_singleton.mpr rfl
  | comma => exact List.forall_mem_singleton.mpr rfl
  | openParen | closeParen => exact absurd hflat Bool.false_ne_true
  | stray c => exact ht.elim

theorem Token.WellFormed.grows {t : Token} (ht : t.WellFormed) (hflat : t.isFlat = true)
    (g : Gauge) : g.Grows (g.after t.marks) :=
  Gauge.grows_after (ht.isFlat_marks hflat) g

theorem forall_mem_of_parenthesised {p : Token → Prop} {ts : List Token} {t u : Token}
    (h : ∀ v ∈ t :: (ts ++ [u]), p v) : ∀ v ∈ ts, p v := by
  rw [List.forall_mem_cons, List.forall_mem_append] at h
  exact h.2.1

theorem forall_mem_append_cons {p : Token → Prop} {ts us : List Token} {t : Token}
    (h : ∀ u ∈ ts ++ t :: us, p u) : (∀ u ∈ ts, p u) ∧ p t ∧ ∀ u ∈ us, p u := by
  rw [List.forall_mem_append, List.forall_mem_cons] at h
  exact h

mutual
theorem Derives.grows : ∀ {k : Level} {ts : List Token} {e : Expr}, Derives k ts e →
    (∀ t ∈ ts, t.WellFormed) → ∀ g : Gauge, g.Grows (g.after (ts.flatMap Token.marks))
  | _, _, _, .number l, hw, g => by
      rw [List.flatMap_singleton]
      exact (hw _ List.mem_cons_self).grows rfl g
  | _, _, _, .name x, hw, g => by
      rw [List.flatMap_singleton]
      exact (hw _ List.mem_cons_self).grows rfl g
  | _, _, _, .group h, hw, g => by
      apply Gauge.grows_parenthesised
      exact h.grows (forall_mem_of_parenthesised hw)
  | _, _, _, .callNothing f, hw, g => by
      have hname := (hw _ List.mem_cons_self).grows rfl g
      rw [List.flatMap_cons, Gauge.after_append]
      exact hname.trans (@Gauge.grows_parenthesised [] Gauge.Grows.refl _)
  | _, _, _, .call f h, hw, g => by
      obtain ⟨hf, hparens⟩ := List.forall_mem_cons.mp hw
      have hname := hf.grows rfl g
      have harguments := h.grows (forall_mem_of_parenthesised hparens)
      rw [List.flatMap_cons, Gauge.after_append]
      exact hname.trans (Gauge.grows_parenthesised harguments _)
  | _, _, _, .signed _ h, hw, g => by
      obtain ⟨ho, hts⟩ := List.forall_mem_cons.mp hw
      have hsign := ho.grows rfl g
      rw [List.flatMap_cons, Gauge.after_append]
      exact hsign.trans (h.grows hts _)
  | _, _, _, .binary o hl hr, hw, g => by
      obtain ⟨hts, ho, hus⟩ := forall_mem_append_cons hw
      have hleft := hl.grows hts g
      have hoperator := hleft.trans (ho.grows rfl _)
      rw [List.flatMap_append, List.flatMap_cons, Gauge.after_append, Gauge.after_append]
      exact hoperator.trans (hr.grows hus _)
  | _, _, _, .loosen _ h, hw, g => h.grows hw g
theorem DerivesList.grows : ∀ {ts : List Token} {es : List Expr}, DerivesList ts es →
    (∀ t ∈ ts, t.WellFormed) → ∀ g : Gauge, g.Grows (g.after (ts.flatMap Token.marks))
  | _, _, .last h, hw, g => h.grows hw g
  | _, _, .cons h hs, hw, g => by
      obtain ⟨hts, ht, hus⟩ := forall_mem_append_cons hw
      have hcomma := (h.grows hts g).trans (ht.grows rfl _)
      rw [List.flatMap_append, List.flatMap_cons, Gauge.after_append, Gauge.after_append]
      exact hcomma.trans (hs.grows hus _)
end

/-! ## Room for steps -/

/-- The nesting steps for which a gauge leaves room in a phrase of level `k`, if the reading stays
within `d`. -/
def Gauge.room (g : Gauge) (d : Nat) : Level → Nat
  | .sum | .product =>
    (d - g.outer.length - g.powers) + (d - g.outer.length - g.powers + 1).choose 2 +
      (d - g.outer.length + 2).choose 3
  | .signed =>
    (d - g.outer.length - g.powers - g.signs) + (d - g.outer.length - g.powers + 1).choose 2 +
      (d - g.outer.length + 2).choose 3
  | .power => (d - g.outer.length - g.powers + 1).choose 2 + (d - g.outer.length + 2).choose 3
  | .atom => (d - g.outer.length + 2).choose 3

theorem Gauge.room_antitone (g : Gauge) (d : Nat) {j k : Level} (h : j.rank ≤ k.rank) :
    g.room d k ≤ g.room d j := by
  cases j <;> cases k <;> first
    | exact absurd h (by decide)
    | simp only [Gauge.room]
      omega

theorem Gauge.Grows.room_le {g g' : Gauge} (h : g.Grows g') (d : Nat) {k : Level}
    (hk : k ≠ .signed) : g'.room d k ≤ g.room d k := by
  have hpowers := h.powers_le
  have hless : d - g.outer.length - g'.powers ≤ d - g.outer.length - g.powers := by omega
  have hchoose := Nat.choose_le_choose 2 (Nat.add_le_add_right hless 1)
  cases k with
  | signed => exact absurd rfl hk
  | sum | product | power | atom =>
      simp only [Gauge.room, h.outer_eq]
      omega

/-- A sum or a product has all the room that there is, for signs too. -/
theorem Gauge.Grows.room_le_of_rank_le {g g' : Gauge} (h : g.Grows g') (d : Nat) {j : Level}
    (k : Level) (hj : j.rank ≤ Level.product.rank) : g'.room d k ≤ g.room d j := by
  have hsum : g'.room d k ≤ g'.room d .sum := g'.room_antitone d (Level.sum_rank_le k)
  cases j with
  | sum | product => exact Nat.le_trans hsum (h.room_le d (k := .sum) (by decide))
  | signed | power | atom => exact absurd hj (by decide)

/-- A step into an operand uses up the sign before it. -/
theorem Gauge.room_sign {g : Gauge} {d : Nat} (h : (g.step .sign).reading ≤ d) :
    1 + (g.step .sign).room d .signed ≤ g.room d .signed := by
  simp only [Gauge.step, Gauge.reading, Gauge.room] at *
  omega

/-- A step into an exponent uses up the power before it, and a new run of signs begins. -/
theorem Gauge.room_power {g : Gauge} {d : Nat} (h : (g.step .power).reading ≤ d) :
    1 + (g.step .power).room d .signed = g.room d .power := by
  obtain ⟨q, hq⟩ : ∃ q, d - g.outer.length - g.powers = q + 1 := by
    apply Nat.exists_eq_succ_of_ne_zero
    simp only [Gauge.step, Gauge.reading] at h
    omega
  have hnext : d - g.outer.length - (g.powers + 1) = q := by omega
  have hchoose : (q + 2).choose 2 = (q + 1) + (q + 1).choose 2 := by
    rw [Nat.choose_succ_succ, Nat.choose_one_right]
  simp only [Gauge.step, Gauge.room, hq, hnext, hchoose]
  omega

theorem choose_three_succ (m : Nat) :
    (m + 3).choose 3 = 1 + (m + (m + 1).choose 2 + (m + 2).choose 3) := by
  have h₃ : (m + 3).choose 3 = (m + 2).choose 2 + (m + 2).choose 3 := Nat.choose_succ_succ ..
  have h₂ : (m + 2).choose 2 = (m + 1).choose 1 + (m + 1).choose 2 := Nat.choose_succ_succ ..
  have h₁ : (m + 1).choose 1 = m + 1 := Nat.choose_one_right _
  omega

/-- A step into a call uses up its parenthesis. -/
theorem Gauge.room_openParen {g : Gauge} {d : Nat} (h : (g.step .openParen).reading ≤ d) :
    1 + (g.step .openParen).room d .sum = g.room d .atom := by
  obtain ⟨m, hm⟩ : ∃ m, d - g.outer.length = m + 1 := by
    apply Nat.exists_eq_succ_of_ne_zero
    simp only [Gauge.step, Gauge.reading, List.length_cons] at h
    omega
  have hinner : d - (g.outer.length + 1) = m := by omega
  simp only [Gauge.step, Gauge.room, List.length_cons, hm, hinner, Nat.sub_zero]
  exact (choose_three_succ m).symm

/-! ## Room for a phrase -/

theorem Operator.rank_level_le {o : Operator} (ho : o ≠ .power) :
    o.level.rank ≤ Level.product.rank := by
  cases o with
  | power => exact absurd rfl ho
  | add | subtract | multiply | divide | modulo => decide

theorem Frame.load_binary_of_ne {o : Operator} (ho : o ≠ .power) (l : Expr) :
    (Frame.binary o l).load = 0 := by
  cases o with
  | power => exact absurd rfl ho
  | add | subtract | multiply | divide | modulo => rfl

mutual
/-- A phrase nests no deeper than the gauge before it leaves room for. -/
theorem Derives.recursion_le_room : ∀ {k : Level} {ts : List Token} {e : Expr}, Derives k ts e →
    (∀ t ∈ ts, t.WellFormed) → ∀ {g : Gauge} {d : Nat}, g.peak (ts.flatMap Token.marks) ≤ d →
      e.recursion ≤ g.room d k
  | _, _, _, .number l, _, g, d, _ => Nat.zero_le _
  | _, _, _, .name x, _, g, d, _ => Nat.zero_le _
  | _, _, _, .group h, hw, g, d, hpeak => by
      obtain ⟨hreading, hinner⟩ := Gauge.peak_parenthesised_le hpeak
      have hroom := Gauge.room_openParen hreading
      have := h.recursion_le_room (forall_mem_of_parenthesised hw) hinner
      omega
  | _, _, _, .callNothing f, hw, g, d, hpeak => by
      have hgrows := (hw _ List.mem_cons_self).grows rfl g
      rw [List.flatMap_cons, Gauge.peak_append_le_iff] at hpeak
      obtain ⟨hreading, -⟩ := @Gauge.peak_parenthesised_le _ [] _ hpeak.2
      have hroom := Gauge.room_openParen hreading
      have hatom := hgrows.room_le d (k := .atom) (by decide)
      rw [Expr.recursion, Expr.recursionList]
      omega
  | _, _, _, .call f h, hw, g, d, hpeak => by
      obtain ⟨hf, hparens⟩ := List.forall_mem_cons.mp hw
      have hgrows := hf.grows rfl g
      rw [List.flatMap_cons, Gauge.peak_append_le_iff] at hpeak
      obtain ⟨hreading, hinner⟩ := Gauge.peak_parenthesised_le hpeak.2
      have hroom := Gauge.room_openParen hreading
      have hatom := hgrows.room_le d (k := .atom) (by decide)
      have := h.recursion_le_room (forall_mem_of_parenthesised hparens) hinner
      rw [Expr.recursion]
      omega
  | _, _, _, .signed hs h, hw, g, d, hpeak => by
      rw [List.flatMap_cons, marks_of_sign? hs, List.singleton_append,
        Gauge.peak_cons_le_iff] at hpeak
      have hroom := Gauge.room_sign hpeak.1
      have := h.recursion_le_room (fun t ht => hw t (List.mem_cons_of_mem _ ht)) hpeak.2
      rw [Expr.recursion]
      omega
  | _, _, _, .binary o (l := l) hl hr, hw, g, d, hpeak => by
      obtain ⟨hts, ho, hus⟩ := forall_mem_append_cons hw
      have hleft := hl.grows hts g
      rw [List.flatMap_append, List.flatMap_cons, Gauge.peak_append_le_iff,
        Gauge.peak_append_le_iff] at hpeak
      obtain ⟨hpeakl, hpeako, hpeakr⟩ := hpeak
      have hroomr := hr.recursion_le_room hus hpeakr
      have hrooml := hl.recursion_le_room hts hpeakl
      rw [Expr.recursion_binary]
      by_cases hpower : o = .power
      -- The base is an atom; the exponent begins a run of signs, one shorter than before.
      · subst hpower
        have hexponent := Gauge.room_power (Gauge.peak_cons_le_iff.mp hpeako).1
        have hbefore := hleft.room_le d (k := .power) (by decide)
        have hbase := g.room_antitone d (j := .power) (k := .atom) (by decide)
        refine Nat.max_le.mpr ⟨Nat.le_trans hrooml hbase, ?_⟩
        exact Nat.le_trans (Nat.add_le_add_left hroomr 1) (Nat.le_trans hexponent.le hbefore)
      -- Both sides of any other operator may begin with the longest run.
      · have hlevel := Operator.rank_level_le hpower
        have hbetween := hleft.trans (ho.grows rfl _)
        rw [Frame.load_binary_of_ne hpower, Nat.zero_add]
        exact Nat.max_le.mpr
          ⟨Nat.le_trans hrooml ((Gauge.Grows.refl g).room_le_of_rank_le d o.leftLevel hlevel),
            Nat.le_trans hroomr (hbetween.room_le_of_rank_le d o.rightLevel hlevel)⟩
  | _, _, _, .loosen hjk h, hw, g, d, hpeak =>
      Nat.le_trans (h.recursion_le_room hw hpeak) (g.room_antitone d (Nat.le_of_lt hjk))
theorem DerivesList.recursion_le_room : ∀ {ts : List Token} {es : List Expr}, DerivesList ts es →
    (∀ t ∈ ts, t.WellFormed) → ∀ {g : Gauge} {d : Nat}, g.peak (ts.flatMap Token.marks) ≤ d →
      Expr.recursionList es ≤ g.room d .sum
  | _, _, .last h, hw, g, d, hpeak => by
      rw [Expr.recursionList, Expr.recursionList, Nat.max_zero]
      exact h.recursion_le_room hw hpeak
  | _, _, .cons h hs, hw, g, d, hpeak => by
      obtain ⟨hts, ht, hus⟩ := forall_mem_append_cons hw
      have hcomma := (h.grows hts g).trans (ht.grows rfl _)
      rw [List.flatMap_append, List.flatMap_cons, Gauge.peak_append_le_iff,
        Gauge.peak_append_le_iff] at hpeak
      obtain ⟨hfirst, -, hrest⟩ := hpeak
      rw [Expr.recursionList]
      exact Nat.max_le.mpr ⟨h.recursion_le_room hts hfirst,
        Nat.le_trans (hs.recursion_le_room hus hrest) (hcomma.room_le d (by decide))⟩
end

/-! ## The bound -/

theorem choose_three_eq (d : Nat) : (d + 3).choose 3 = (d + 1) * (d + 2) * (d + 3) / 6 := by
  have hfalling : (d + 3).descFactorial 3 = (d + 1) * (d + 2) * (d + 3) := by
    simp only [Nat.descFactorial, Nat.mul_one, Nat.mul_assoc]
    rfl
  rw [Nat.choose_eq_descFactorial_div_factorial, hfalling]
  rfl

theorem room_start (d : Nat) : ({} : Gauge).room d .sum = (d + 1) * (d + 2) * (d + 3) / 6 - 1 := by
  rw [← choose_three_eq, choose_three_succ, Nat.add_sub_cancel_left]
  rfl

theorem recursion_le_of_parse {s : String} {e : Expr} (h : Expr.parse s = .ok e) {d : Nat}
    (hd : nestingDepth s ≤ d) : e.recursion ≤ (d + 1) * (d + 2) * (d + 3) / 6 - 1 := by
  obtain ⟨ts, hts, hderives, hdepth⟩ := exists_tokens_of_parse h
  rw [← room_start]
  apply hderives.recursion_le_room (munches_iff.mp hts).2
  rw [← hdepth]
  exact hd

/-- **The limit on the depth bounds the nesting.**  No path from the root of a tree takes more
steps into a sign's operand, an exponent or an argument than a number that depends on the depth of
the text alone; so for a text within the limits the number depends on the limit alone, however long
the text is. -/
theorem nests_le_of_parse :
    (∀ s e, Expr.parse s = .ok e → ∀ path e', Leads e path e' →
      path.countP Turn.nests ≤
        (nestingDepth s + 1) * (nestingDepth s + 2) * (nestingDepth s + 3) / 6 - 1) ∧
    ∀ (c : Settings) (s : String) (e : Expr), c.check s = .ok () → Expr.parse s = .ok e →
      ∀ path e', Leads e path e' →
        path.countP Turn.nests
          ≤ (c.maxDepth + 1) * (c.maxDepth + 2) * (c.maxDepth + 3) / 6 - 1 := by
  constructor
  · intro s e h path e' hpath
    exact Nat.le_trans hpath.countP_le_recursion (recursion_le_of_parse h (Nat.le_refl _))
  · intro c s e hcheck h path e' hpath
    have hdepth := (check_eq_ok_iff.mp hcheck).2
    exact Nat.le_trans hpath.countP_le_recursion (recursion_le_of_parse h hdepth)

/-- A sign, a power and a call in a text that reads 1: the bound is reached. -/
theorem nests_le_of_parse_reached :
    let two : Expr := .number (.ofFloat (Decimal.Literal.value ⟨['2'], [], none⟩))
    let three : Expr := .number (.ofFloat (Decimal.Literal.value ⟨['3'], [], none⟩))
    let e : Expr := .signed .minus (.binary .power two (.call "f" [three]))
    let path : List Turn := [.operand, .right .power, .argument 0]
    let c : Settings := { maxDepth := 1 }
    c.check "-2**f(3)" = .ok () ∧ Expr.parse "-2**f(3)" = .ok e ∧ Leads e path three ∧
      path.countP Turn.nests ≤ (c.maxDepth + 1) * (c.maxDepth + 2) * (c.maxDepth + 3) / 6 - 1 ∧
      path.countP Turn.nests = 3 ∧
      (c.maxDepth + 1) * (c.maxDepth + 2) * (c.maxDepth + 3) / 6 - 1 = 3 := by
  intro two three e path c
  have hparse : Expr.parse "-2**f(3)" = .ok e := by with_unfolding_all rfl
  have hcheck : c.check "-2**f(3)" = .ok () := by decide +kernel
  have hpath : Leads e path three :=
    .operand _ (.right _ (.argument _ rfl (.here three)))
  exact ⟨hcheck, hparse, hpath, nests_le_of_parse.2 c _ e hcheck hparse path three hpath, rfl,
    by decide⟩

end Reckoner
