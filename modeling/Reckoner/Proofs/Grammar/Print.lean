/-
# `Reckoner.Proofs.Grammar.Print` — reading undoes printing

A tree is printed with as few parentheses as its levels allow.  Every place of a tree
has a level, the loosest construction that may stand there bare:

    left of + -        a sum            right of + -         a product
    left of * / %      a product        right of * / %       a signed phrase
    behind a sign      a signed phrase  exponent             a signed phrase
    base of a power    an atom          argument of a call   a sum

A construction that binds more loosely than its place stands in parentheses, no other
does.  `Prints` says this of trees and tokens; any literal may stand for a number that
it denotes, and any separators may stand between the tokens (`Expr.Printed`).

`parse_printed` has three parts.  A printed tree is read back.  Every tree with numbers
a literal can denote and names the lexer knows (`Expr.Plain`) can be printed.  And these
are all the trees that reading ever gives.
-/
import Reckoner.Proofs.Decimal.Value
import Reckoner.Proofs.Grammar.Adjacent
import Reckoner.Proofs.Grammar.Leaves
import Reckoner.Proofs.Grammar.Viable
import Reckoner.Proofs.Settings.Marks

namespace Reckoner

/-- How tightly the outermost construction of a tree binds. -/
def Expr.level : Expr → Level
  | .binary .add .. | .binary .subtract .. => .sum
  | .binary .multiply .. | .binary .divide .. | .binary .modulo .. => .product
  | .signed .. => .signed
  | .binary .power .. => .power
  | .number _ | .name _ | .call .. => .atom

def Sign.operator : Sign → Operator
  | .plus => .add
  | .minus => .subtract

mutual
/-- `Prints k e ts`: at a place of level `k` the tree `e` is printed as the tokens `ts`. -/
inductive Prints : Level → Expr → List Token → Prop where
  | bare {k : Level} {e : Expr} {ts : List Token} :
      k.rank ≤ e.level.rank → PrintsBare e ts → Prints k e ts
  | parenthesized {k : Level} {e : Expr} {ts : List Token} :
      e.level.rank < k.rank → PrintsBare e ts →
      Prints k e (.openParen :: (ts ++ [.closeParen]))

/-- `PrintsBare e ts`: without parentheses around it, the tree `e` is printed as the tokens
`ts`. -/
inductive PrintsBare : Expr → List Token → Prop where
  | number {v : Number} {l : Decimal.Literal} :
      l.WellFormed → .ofFloat l.value = v → PrintsBare (.number v) [.number l]
  | name (x : String) : PrintsBare (.name x) [.name x]
  | signed (s : Sign) {e : Expr} {ts : List Token} :
      Prints .signed e ts → PrintsBare (.signed s e) (.operator s.operator :: ts)
  | sum {o : Operator} {l r : Expr} {ts us : List Token} :
      o = .add ∨ o = .subtract → Prints .sum l ts → Prints .product r us →
      PrintsBare (.binary o l r) (ts ++ .operator o :: us)
  | product {o : Operator} {l r : Expr} {ts us : List Token} :
      o = .multiply ∨ o = .divide ∨ o = .modulo → Prints .product l ts → Prints .signed r us →
      PrintsBare (.binary o l r) (ts ++ .operator o :: us)
  | power {b x : Expr} {ts us : List Token} :
      Prints .atom b ts → Prints .signed x us →
      PrintsBare (.binary .power b x) (ts ++ .operator .power :: us)
  | callNothing (f : String) : PrintsBare (.call f []) [.name f, .openParen, .closeParen]
  | call (f : String) {es : List Expr} {ts : List Token} :
      PrintsList es ts →
      PrintsBare (.call f es) (.name f :: .openParen :: (ts ++ [.closeParen]))

/-- `PrintsList es ts`: the arguments `es`, at least one, are printed as the tokens `ts`, with
commas between them. -/
inductive PrintsList : List Expr → List Token → Prop where
  | last {e : Expr} {ts : List Token} : Prints .sum e ts → PrintsList [e] ts
  | cons {e : Expr} {es : List Expr} {ts us : List Token} :
      Prints .sum e ts → PrintsList es us → PrintsList (e :: es) (ts ++ .comma :: us)
end

/-- The text is the printed tree, with any separators between the tokens. -/
def Expr.Printed (e : Expr) (s : String) : Prop := ∃ ts, Prints .sum e ts ∧ Layout ts s.toList

/-- An ASCII letter or an underscore, and then only these and digits. -/
def IsName (x : String) : Prop :=
  ∃ c cs, x.toList = c :: cs ∧ (c.isAlpha = true ∨ c = '_') ∧
    ∀ d ∈ cs, d.isAlphanum = true ∨ d = '_'

/-- The numbers are finite, with the sign bit clear, and the words are names. -/
def PlainLeaves (vs : List Number) (xs : List String) : Prop :=
  (∀ v ∈ vs, v.isFinite = true ∧ v.bits < 2 ^ 63) ∧ ∀ x ∈ xs, IsName x

/-- The leaves of the tree, and the names of routines in it, are plain. -/
def Expr.Plain (e : Expr) : Prop := PlainLeaves e.numbers e.words

/-! ## Printed tokens are a phrase -/

theorem Sign.sign?_operator (s : Sign) : s.operator.sign? = some s := by
  cases s <;> rfl

theorem Level.rank_le_atom (k : Level) : k.rank ≤ Level.atom.rank := by
  cases k <;> decide

mutual
theorem Prints.derives : ∀ {k : Level} {e : Expr} {ts : List Token}, Prints k e ts →
    Derives k ts e
  | _, _, _, .bare hk h => h.derives.of_rank_le hk
  | k, _, _, .parenthesized _ h =>
      .of_rank_le (Level.rank_le_atom k) (.group (h.derives.of_rank_le (Level.sum_rank_le _)))
theorem PrintsBare.derives : ∀ {e : Expr} {ts : List Token}, PrintsBare e ts →
    Derives e.level ts e
  | _, _, .number (l := l) _ hv => by
      subst hv
      exact .number l
  | _, _, .name x => .name x
  | _, _, .signed s h => .signed s.sign?_operator h.derives
  | _, _, .sum ho hl hr => by
      rcases ho with rfl | rfl
      · exact .binary .add hl.derives hr.derives
      · exact .binary .subtract hl.derives hr.derives
  | _, _, .product ho hl hr => by
      rcases ho with rfl | rfl | rfl
      · exact .binary .multiply hl.derives hr.derives
      · exact .binary .divide hl.derives hr.derives
      · exact .binary .modulo hl.derives hr.derives
  | _, _, .power hb hx => .binary .power hb.derives hx.derives
  | _, _, .callNothing f => .callNothing f
  | _, _, .call f h => .call f h.derives
theorem PrintsList.derives : ∀ {es : List Expr} {ts : List Token}, PrintsList es ts →
    DerivesList ts es
  | _, _, .last h => .last h.derives
  | _, _, .cons h hs => .cons h.derives hs.derives
end

/-! ## Printed tokens are well formed -/

theorem wellFormed_around {t : Token} {ts us : List Token} (ht : t.WellFormed)
    (hts : ∀ u ∈ ts, u.WellFormed) (hus : ∀ u ∈ us, u.WellFormed) :
    ∀ u ∈ ts ++ t :: us, u.WellFormed :=
  List.forall_mem_append.mpr ⟨hts, List.forall_mem_cons.mpr ⟨ht, hus⟩⟩

theorem wellFormed_parenthesized {ts : List Token} (hts : ∀ u ∈ ts, u.WellFormed) :
    ∀ u ∈ .openParen :: (ts ++ [.closeParen]), u.WellFormed :=
  List.forall_mem_cons.mpr ⟨trivial, wellFormed_around trivial hts (List.forall_mem_nil _)⟩

theorem isName_iff {x : String} : IsName x ↔ (Token.name x).WellFormed := by
  simp only [IsName, Token.WellFormed, isNameStart, isNamePart, Bool.or_eq_true, beq_iff_eq]

mutual
theorem Prints.wellFormed : ∀ {k : Level} {e : Expr} {ts : List Token}, Prints k e ts →
    (∀ x ∈ e.words, IsName x) → ∀ t ∈ ts, t.WellFormed
  | _, _, _, .bare _ h, hx => h.wellFormed hx
  | _, _, _, .parenthesized _ h, hx => wellFormed_parenthesized (h.wellFormed hx)
theorem PrintsBare.wellFormed : ∀ {e : Expr} {ts : List Token}, PrintsBare e ts →
    (∀ x ∈ e.words, IsName x) → ∀ t ∈ ts, t.WellFormed
  | _, _, .number hl _, _ => List.forall_mem_singleton.mpr hl
  | _, _, .name x, hx => List.forall_mem_singleton.mpr (isName_iff.mp (hx x List.mem_cons_self))
  | _, _, .signed s h, hx => List.forall_mem_cons.mpr ⟨trivial, h.wellFormed hx⟩
  | _, _, .sum _ hl hr, hx | _, _, .product _ hl hr, hx | _, _, .power hl hr, hx => by
      obtain ⟨hxl, hxr⟩ := List.forall_mem_append.mp hx
      exact wellFormed_around trivial (hl.wellFormed hxl) (hr.wellFormed hxr)
  | _, _, .callNothing f, hx => by
      have hf := isName_iff.mp (hx f List.mem_cons_self)
      exact List.forall_mem_cons.mpr ⟨hf, wellFormed_parenthesized (List.forall_mem_nil _)⟩
  | _, _, .call f h, hx => by
      obtain ⟨hf, hxs⟩ := List.forall_mem_cons.mp hx
      exact List.forall_mem_cons.mpr ⟨isName_iff.mp hf, wellFormed_parenthesized (h.wellFormed hxs)⟩
theorem PrintsList.wellFormed : ∀ {es : List Expr} {ts : List Token}, PrintsList es ts →
    (∀ x ∈ Expr.wordsList es, IsName x) → ∀ t ∈ ts, t.WellFormed
  | _, _, .last h, hx => h.wellFormed (by simpa [Expr.wordsList] using hx)
  | _, _, .cons h hs, hx => by
      obtain ⟨hxe, hxes⟩ := List.forall_mem_append.mp hx
      exact wellFormed_around trivial (h.wellFormed hxe) (hs.wellFormed hxes)
end

/-! ## Every plain tree is printed -/

theorem PlainLeaves.of_append {vs ws : List Number} {xs ys : List String}
    (h : PlainLeaves (vs ++ ws) (xs ++ ys)) : PlainLeaves vs xs ∧ PlainLeaves ws ys := by
  obtain ⟨hvs, hws⟩ := List.forall_mem_append.mp h.1
  obtain ⟨hxs, hys⟩ := List.forall_mem_append.mp h.2
  exact ⟨⟨hvs, hxs⟩, hws, hys⟩

theorem PrintsBare.exists_prints {e : Expr} {ts : List Token} (h : PrintsBare e ts) (k : Level) :
    ∃ us, Prints k e us := by
  by_cases hk : k.rank ≤ e.level.rank
  · exact ⟨_, .bare hk h⟩
  · exact ⟨_, .parenthesized (by omega) h⟩

theorem exists_printsBare_binary (o : Operator) {l r : Expr} {ts us : List Token}
    (hl : PrintsBare l ts) (hr : PrintsBare r us) : ∃ vs, PrintsBare (.binary o l r) vs := by
  cases o with
  | add | subtract =>
      obtain ⟨ts', hl⟩ := hl.exists_prints .sum
      obtain ⟨us', hr⟩ := hr.exists_prints .product
      exact ⟨_, .sum (by decide) hl hr⟩
  | multiply | divide | modulo =>
      obtain ⟨ts', hl⟩ := hl.exists_prints .product
      obtain ⟨us', hr⟩ := hr.exists_prints .signed
      exact ⟨_, .product (by decide) hl hr⟩
  | power =>
      obtain ⟨ts', hl⟩ := hl.exists_prints .atom
      obtain ⟨us', hr⟩ := hr.exists_prints .signed
      exact ⟨_, .power hl hr⟩

mutual
theorem exists_printsBare : ∀ e : Expr, e.Plain → ∃ ts, PrintsBare e ts
  | .number v, h => by
      obtain ⟨hfinite, hsign⟩ := h.1 v List.mem_cons_self
      cases v with
      | negativeNaN => exact absurd hfinite (by simp)
      | ofFloat x =>
          obtain ⟨l, hl, rfl⟩ := Decimal.exists_literal hfinite hsign
          exact ⟨_, .number hl rfl⟩
  | .name x, _ => ⟨_, .name x⟩
  | .signed s e, h => by
      obtain ⟨ts, hts⟩ := exists_printsBare e h
      obtain ⟨us, hus⟩ := hts.exists_prints .signed
      exact ⟨_, .signed s hus⟩
  | .binary o l r, h => by
      obtain ⟨hl, hr⟩ := PlainLeaves.of_append h
      obtain ⟨ts, hts⟩ := exists_printsBare l hl
      obtain ⟨us, hus⟩ := exists_printsBare r hr
      exact exists_printsBare_binary o hts hus
  | .call f es, h => by
      obtain ⟨-, hwords⟩ := List.forall_mem_cons.mp h.2
      by_cases hes : es = []
      · rw [hes]
        exact ⟨_, .callNothing f⟩
      · obtain ⟨ts, hts⟩ := exists_printsList es ⟨h.1, hwords⟩ hes
        exact ⟨_, .call f hts⟩
theorem exists_printsList : ∀ es : List Expr,
    PlainLeaves (Expr.numbersList es) (Expr.wordsList es) → es ≠ [] → ∃ ts, PrintsList es ts
  | [], _, hne => absurd rfl hne
  | e :: es, h, _ => by
      obtain ⟨he, hes⟩ := PlainLeaves.of_append h
      obtain ⟨ts, hts⟩ := exists_printsBare e he
      obtain ⟨us, hus⟩ := hts.exists_prints .sum
      by_cases hnil : es = []
      · rw [hnil]
        exact ⟨_, .last hus⟩
      · obtain ⟨vs, hvs⟩ := exists_printsList es hes hnil
        exact ⟨_, .cons hus hvs⟩
end

theorem layout_flatMap (ts : List Token) : Layout ts (ts.flatMap Token.text) := by
  induction ts with
  | nil => exact .nil (by simp)
  | cons t ts ih => exact .cons (w := []) (by simp) ih

theorem exists_printed {e : Expr} (h : e.Plain) : ∃ s, e.Printed s := by
  obtain ⟨ts, hts⟩ := exists_printsBare e h
  obtain ⟨us, hus⟩ := hts.exists_prints .sum
  refine ⟨String.ofList (us.flatMap Token.text), us, hus, ?_⟩
  rw [String.toList_ofList]
  exact layout_flatMap us

/-! ## Reading and printing -/

theorem Munches.isEmpty_eq_false {s : String} {ts : List Token} (h : Munches s.toList ts)
    (hne : ts ≠ []) : Text.isEmpty s = false := by
  obtain ⟨t, ts, rfl⟩ := List.exists_cons_of_ne_nil hne
  have ht : t.WellFormed := (munches_iff.mp h).2 t List.mem_cons_self
  have hfilter := h.filter_eq
  rw [Bool.eq_false_iff]
  intro hblank
  have hnone : s.toList.filter (fun c => !Text.isBlank c) = [] := by
    rw [List.filter_eq_nil_iff]
    intro c hc
    have := List.all_eq_true.mp hblank c hc
    simp [this]
  rw [hnone, List.flatMap_cons] at hfilter
  exact ht.text_ne_nil (List.append_eq_nil_iff.mp hfilter.symm).1

theorem Derives.mem_numbers {k : Level} {ts : List Token} {e : Expr} (h : Derives k ts e)
    {l : Decimal.Literal} (hl : .number l ∈ ts) : .ofFloat l.value ∈ e.numbers := by
  rw [h.numbers_eq]
  exact List.mem_map_of_mem (mem_filterMap_literal?.mpr hl)

theorem parse_of_printed {e : Expr} {s : String} (he : e.Plain) (h : e.Printed s) :
    Expr.parse s = .ok e := by
  obtain ⟨ts, hts, hlayout⟩ := h
  have hderives := hts.derives
  have hmunches := hderives.munches_of_layout (hts.wellFormed he.2) hlayout
  have hs := hmunches.isEmpty_eq_false (ne_nil_of_endsOperand hderives.balanced.2)
  rw [parse_eq_ok_iff hs, (munches_iff.mp hmunches).1]
  exact ⟨hderives, fun l hl => (he.1 _ (hderives.mem_numbers hl)).1⟩

theorem plain_of_parse {s : String} {e : Expr} (h : Expr.parse s = .ok e) : e.Plain := by
  have hfinite := isFinite_of_mem_numbers_parse h
  obtain ⟨hderives, -⟩ := derives_of_parse h
  refine ⟨fun v hv => ⟨hfinite v hv, ?_⟩, fun x hx => ?_⟩
  · rw [hderives.numbers_eq] at hv
    obtain ⟨l, -, rfl⟩ := List.mem_map.mp hv
    exact l.toBits_value_lt
  · rw [hderives.words_eq] at hx
    obtain ⟨t, ht, hname⟩ := List.mem_filterMap.mp hx
    cases t with
    | name y =>
        obtain rfl : y = x := Option.some.inj hname
        rcases wellFormed_or_stray_of_mem_lex ht with hw | ⟨c, hc⟩
        · exact isName_iff.mpr hw
        · exact nomatch hc
    | number l | operator o | openParen | closeParen | comma | stray c => exact nomatch hname

/-- **Reading undoes printing.**  A plain tree, printed with the fewest parentheses, with any
literals that denote its numbers and with any separators, is read back.  Every plain tree can be
printed so, and every tree that is read is plain. -/
theorem parse_printed :
    (∀ (e : Expr) (s : String), e.Plain → e.Printed s → Expr.parse s = .ok e) ∧
    (∀ e : Expr, e.Plain → ∃ s, e.Printed s) ∧
    ∀ (s : String) (e : Expr), Expr.parse s = .ok e → e.Plain :=
  ⟨fun _ _ he h => parse_of_printed he h, fun _ he => exists_printed he,
    fun _ _ h => plain_of_parse h⟩

/-- A signed base needs parentheses and a signed exponent needs none. -/
theorem parse_printed_signs :
    let e : Expr := .binary .power
      (.signed .minus (.number (.ofFloat (Decimal.Literal.value ⟨['2'], [], none⟩))))
      (.signed .minus (.name "x"))
    e.Plain ∧ e.Printed "(-2)**-x" ∧ Expr.parse "(-2)**-x" = .ok e := by
  intro e
  have he : e.Plain := by
    refine ⟨fun v hv => ?_, fun x hx => ?_⟩
    · obtain rfl := List.mem_singleton.mp hv
      decide +kernel
    · obtain rfl := List.mem_singleton.mp hx
      exact ⟨'x', [], rfl, Or.inl rfl, List.forall_mem_nil _⟩
  have hl : (⟨['2'], [], none⟩ : Decimal.Literal).WellFormed :=
    ⟨⟨List.cons_ne_nil _ _, List.forall_mem_singleton.mpr rfl⟩, by simp, by simp⟩
  have hbase : Prints .signed (.number (.ofFloat (Decimal.Literal.value ⟨['2'], [], none⟩))) _ :=
    .bare (by decide) (.number hl rfl)
  have hexponent : Prints .signed (.name "x") _ := .bare (by decide) (.name "x")
  have hprinted : Prints .sum e _ := .bare (by decide)
    (.power (.parenthesized (by decide) (.signed .minus hbase))
      (.bare (by decide) (.signed .minus hexponent)))
  have h : e.Printed "(-2)**-x" := ⟨_, hprinted, layout_flatMap _⟩
  exact ⟨he, h, parse_printed.1 e _ he h⟩

end Reckoner
