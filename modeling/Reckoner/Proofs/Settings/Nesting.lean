/-
# `Reckoner.Proofs.Settings.Nesting` — where the gauge bounds the nesting of a tree

The gauge is meant as a bound on the recursion of the tree.  It is not one.  It
forgets a run of signs at the next character, while the sign stays open until its
operand ends: `-2**3` nests twice, a power within a sign, and reads 1.

What is true, `nestingDepth_bounds_iff`:

* the bound holds for a text exactly when the reader's stack never carries more
  than the reading;
* the limit on the depth keeps what it promises for every text only where it
  allows no nesting at all, or where the limit on the length leaves no room for
  the shortest text that breaks it: as many signs as the depth allows, and a call.
-/
import Reckoner.Proofs.Grammar.Depth
import Reckoner.Proofs.Settings.Marks
import Reckoner.Settings

namespace Reckoner

/-! ## What the gauge counts -/

def Mark.counts : Mark → Bool
  | .openParen | .sign | .power => true
  | .closeParen | .other => false

theorem Gauge.peak_pos_of_mem {m : Mark} (hm : m.counts = true) :
    ∀ {ms : List Mark} (g : Gauge), m ∈ ms → 0 < g.peak ms
  | n :: ms, g, hmem => by
      rw [Gauge.peak]
      rcases List.mem_cons.mp hmem with rfl | hmem
      · have hread : 0 < (g.step m).reading := by
          cases m with
          | openParen | sign | power =>
              simp only [Gauge.step, Gauge.reading, List.length_cons]
              omega
          | closeParen | other => exact nomatch hm
        omega
      · have := Gauge.peak_pos_of_mem hm (g.step n) hmem
        omega

theorem Gauge.signs_le_peak (n : Nat) (ms : List Mark) (g : Gauge) :
    g.signs + (n + 1) ≤ g.peak (List.replicate (n + 1) .sign ++ ms) := by
  induction n generalizing g with
  | zero =>
      simp only [List.replicate, List.cons_append, Gauge.peak, Gauge.step, Gauge.reading]
      omega
  | succ n ih =>
      have := ih (g.step .sign)
      rw [List.replicate_succ, List.cons_append, Gauge.peak]
      simp only [Gauge.step] at this ⊢
      omega

theorem marks_of_sign? {o : Operator} {s : Sign} (hs : o.sign? = some s) :
    (Token.operator o).marks = [.sign] := by
  cases o with
  | add | subtract => rfl
  | multiply | divide | modulo | power => exact absurd hs (by simp [Operator.sign?])

/-! ## Tokens are more than nesting steps -/

/-- What the tokens of a phrase show of the `n` nesting steps of its tree. -/
structure Covers (ts : List Token) (n : Nat) : Prop where
  lt_length : n < ts.length
  /-- Only a run of signs before an operand that does not nest has a single token more. -/
  signs_or_longer :
    (∃ ms, ts.flatMap Token.marks = List.replicate n .sign ++ ms) ∨ n + 2 ≤ ts.length
  exists_mark : 0 < n → ∃ m ∈ ts.flatMap Token.marks, m.counts = true

theorem covers_leaf (t : Token) : Covers [t] 0 where
  lt_length := Nat.zero_lt_one
  signs_or_longer := Or.inl ⟨_, rfl⟩
  exists_mark := fun h => absurd h (Nat.lt_irrefl 0)

theorem exists_mark_of_mem {t : Token} {ts : List Token} (ht : t ∈ ts) {m : Mark}
    (hm : m ∈ t.marks) (hcounts : m.counts = true) :
    ∃ m ∈ ts.flatMap Token.marks, m.counts = true :=
  ⟨m, List.mem_flatMap.mpr ⟨t, ht, hm⟩, hcounts⟩

/-- Parentheses, possibly with a name before them, have room for a step of their own. -/
theorem covers_parentheses {p u : List Token} {n : Nat} (hn : n ≤ p.length + u.length) :
    Covers (p ++ .openParen :: (u ++ [.closeParen])) n where
  lt_length := by
    simp only [List.length_append, List.length_cons, List.length_nil]
    omega
  signs_or_longer := by
    right
    simp only [List.length_append, List.length_cons, List.length_nil]
    omega
  exists_mark := fun _ =>
    exists_mark_of_mem (List.mem_append_right _ List.mem_cons_self) (m := .openParen)
      (by decide) rfl

theorem Covers.signed {o : Operator} {s : Sign} (hs : o.sign? = some s) {ts : List Token} {n : Nat}
    (h : Covers ts n) : Covers (.operator o :: ts) (1 + n) where
  lt_length := by
    have := h.lt_length
    rw [List.length_cons]
    omega
  signs_or_longer := by
    rcases h.signs_or_longer with ⟨ms, hms⟩ | hlong
    · left
      refine ⟨ms, ?_⟩
      rw [List.flatMap_cons, marks_of_sign? hs, hms, Nat.add_comm, List.replicate_succ]
      rfl
    · right
      rw [List.length_cons]
      omega
  exists_mark := fun _ =>
    exists_mark_of_mem List.mem_cons_self (m := .sign) (by rw [marks_of_sign? hs]; decide) rfl

theorem Covers.join {ts us : List Token} {m n w : Nat} (hm : Covers ts m) (hn : Covers us n)
    {t : Token} (hw : w ≤ 1) (ht : 0 < w → ∃ k ∈ t.marks, k.counts = true) :
    Covers (ts ++ t :: us) (max m (w + n)) where
  lt_length := by
    have := hm.lt_length
    have := hn.lt_length
    rw [List.length_append, List.length_cons]
    omega
  signs_or_longer := by
    right
    have := hm.lt_length
    have := hn.lt_length
    rw [List.length_append, List.length_cons]
    omega
  exists_mark := by
    intro hpos
    rw [List.flatMap_append, List.flatMap_cons]
    by_cases hm₀ : 0 < m
    · obtain ⟨k, hk, hcounts⟩ := hm.exists_mark hm₀
      exact ⟨k, List.mem_append_left _ hk, hcounts⟩
    by_cases hw₀ : 0 < w
    · obtain ⟨k, hk, hcounts⟩ := ht hw₀
      exact ⟨k, List.mem_append_right _ (List.mem_append_left _ hk), hcounts⟩
    · obtain ⟨k, hk, hcounts⟩ := hn.exists_mark (by omega)
      exact ⟨k, List.mem_append_right _ (List.mem_append_right _ hk), hcounts⟩

theorem exists_mark_of_load {o : Operator} {l : Expr} (h : 0 < (Frame.binary o l).load) :
    ∃ m ∈ (Token.operator o).marks, m.counts = true := by
  cases o with
  | power => exact ⟨.power, by decide, rfl⟩
  | add | subtract | multiply | divide | modulo => exact absurd h (Nat.lt_irrefl 0)

mutual
theorem Derives.covers : ∀ {k : Level} {ts : List Token} {e : Expr},
    Derives k ts e → Covers ts e.recursion
  | _, _, _, .number l => covers_leaf (.number l)
  | _, _, _, .name x => covers_leaf (.name x)
  | _, _, _, .group h => by
      have := h.covers.lt_length
      exact covers_parentheses (p := []) (by omega)
  | _, _, _, .callNothing f => covers_parentheses (p := [.name f]) (u := []) (Nat.le_refl 1)
  | _, _, _, .call f h => by
      have := h.covers.lt_length
      refine covers_parentheses (p := [.name f]) ?_
      rw [Expr.recursion, List.length_singleton]
      omega
  | _, _, _, .signed hs h => h.covers.signed hs
  | _, _, _, .binary o (l := l) (r := r) hl hr => by
      rw [Expr.recursion_binary]
      exact hl.covers.join hr.covers (Frame.load_le_one _) exists_mark_of_load
  | _, _, _, .loosen _ h => h.covers
theorem DerivesList.covers : ∀ {ts : List Token} {es : List Expr},
    DerivesList ts es → Covers ts (Expr.recursionList es)
  | _, _, .last h => by
      rw [Expr.recursionList, Expr.recursionList, Nat.max_zero]
      exact h.covers
  | _, _, .cons h hs => by
      have := h.covers.join hs.covers (w := 0) (t := .comma) (Nat.zero_le 1)
        fun h => absurd h (Nat.lt_irrefl 0)
      rw [Nat.zero_add] at this
      exact this
end

/-! ## Minus signs in front of a text -/

theorem lex_minuses (n : Nat) (cs : List Char) :
    (lex (List.replicate n '-' ++ cs)).map (·.token) =
      List.replicate n (.operator .subtract) ++ (lex cs).map (·.token) := by
  induction n with
  | zero => rfl
  | succ n ih =>
      have hfirst : ∀ ds, Token.first '-' ds = (.operator .subtract, ds) := fun _ => rfl
      rw [List.replicate_succ, List.cons_append, lex_token (by decide), hfirst, List.map_cons, ih]
      rfl

theorem exists_derives_minuses (n : Nat) {ts : List Token} {e : Expr} (h : Derives .signed ts e) :
    ∃ e', Derives .signed (List.replicate n (.operator .subtract) ++ ts) e' := by
  induction n with
  | zero => exact ⟨e, h⟩
  | succ n ih =>
      obtain ⟨e', he'⟩ := ih
      exact ⟨.signed .minus e', .signed rfl he'⟩

theorem marks_minuses (n : Nat) (cs : List Char) :
    marks (List.replicate n '-' ++ cs) = List.replicate n .sign ++ marks cs := by
  induction n with
  | zero => rfl
  | succ n ih =>
      rw [List.replicate_succ, List.cons_append, marks, ih]
      rfl

theorem Gauge.peak_minuses_le (n k : Nat) (ms : List Mark) :
    ({ signs := k } : Gauge).peak (List.replicate n .sign ++ ms) ≤
      max (k + n) (({ signs := k + n } : Gauge).peak ms) := by
  induction n generalizing k with
  | zero => exact Nat.le_max_right ..
  | succ n ih =>
      have := ih (k + 1)
      rw [Nat.add_assoc, Nat.add_comm 1 n] at this
      rw [List.replicate_succ, List.cons_append, Gauge.peak]
      simp only [Gauge.step, Gauge.reading, List.length_nil]
      omega

/-! ## The shortest text that breaks the limit -/

/-- `n` signs before a call. -/
def signedCall : Nat → Expr
  | 0 => .call "f" []
  | n + 1 => .signed .minus (signedCall n)

def signedCallText (n : Nat) : List Char := List.replicate n '-' ++ ['f', '(', ')']

theorem recursion_signedCall (n : Nat) : (signedCall n).recursion = n + 1 := by
  induction n with
  | zero => rfl
  | succ n ih =>
      rw [signedCall, Expr.recursion, ih]
      exact Nat.add_comm ..

theorem lex_signedCallText (n : Nat) :
    (lex (signedCallText n)).map (·.token) =
      List.replicate n (.operator .subtract) ++ [.name "f", .openParen, .closeParen] := by
  have hcall : (lex ['f', '(', ')']).map (·.token) = [.name "f", .openParen, .closeParen] := by
    decide +kernel
  rw [signedCallText, lex_minuses, hcall]

theorem derives_signedCall (n : Nat) :
    Derives .signed (List.replicate n (.operator .subtract) ++ [.name "f", .openParen, .closeParen])
      (signedCall n) := by
  induction n with
  | zero => exact .loosen (by decide) (.callNothing "f")
  | succ n ih => exact .signed rfl ih

theorem parse_signedCall (n : Nat) :
    Expr.parse (String.ofList (signedCallText n)) = .ok (signedCall n) := by
  have hs : Text.isEmpty (String.ofList (signedCallText n)) = false := by
    rw [Bool.eq_false_iff]
    intro h
    rw [Text.isEmpty, String.toList_ofList] at h
    have := List.all_eq_true.mp h 'f' (by simp [signedCallText])
    exact absurd this (by decide)
  rw [parse_eq_ok_iff hs, String.toList_ofList, lex_signedCallText]
  exact ⟨(derives_signedCall n).of_rank_le (by decide), by simp⟩

theorem marks_signedCallText (n : Nat) :
    marks (signedCallText n) = List.replicate n .sign ++ [.other, .openParen, .closeParen] := by
  rw [signedCallText, marks_minuses]
  rfl

theorem nestingDepth_signedCall_le (n : Nat) :
    nestingDepth (String.ofList (signedCallText n)) ≤ max n 1 := by
  have hfilter : (signedCallText n).filter (fun c => !Text.isBlank c) = signedCallText n := by
    rw [List.filter_eq_self]
    intro c hc
    simp only [signedCallText, List.mem_append, List.mem_replicate, List.mem_cons,
      List.not_mem_nil, or_false] at hc
    rcases hc with ⟨_, rfl⟩ | rfl | rfl | rfl <;> decide
  rw [nestingDepth, String.toList_ofList, hfilter, marks_signedCallText]
  have hpeak := Gauge.peak_minuses_le n 0 [.other, .openParen, .closeParen]
  have hcall : ({ signs := 0 + n } : Gauge).peak [.other, .openParen, .closeParen] = 1 := rfl
  rwa [hcall, Nat.zero_add] at hpeak

/-! ## The bound -/

theorem Munches.length_le {cs : List Char} {ts : List Token} (h : Munches cs ts) :
    ts.length ≤ cs.length :=
  Nat.le_trans h.length_le_filter (List.length_filter_le ..)

/-- Where the gauge falls short, it has still counted something, and the text is longer than its
tree nests. -/
theorem nestingDepth_pos_and_length_of_lt {s : String} {e : Expr} (h : Expr.parse s = .ok e)
    (hlt : nestingDepth s < e.recursion) : 0 < nestingDepth s ∧ e.recursion + 2 ≤ s.length := by
  obtain ⟨ts, hts, he, hdepth⟩ := exists_tokens_of_parse h
  obtain ⟨m, hm, hcounts⟩ := he.covers.exists_mark (by omega)
  have hpos := Gauge.peak_pos_of_mem hcounts {} hm
  refine ⟨by rw [hdepth]; exact hpos, ?_⟩
  rcases he.covers.signs_or_longer with ⟨ms, hms⟩ | hlong
  · obtain ⟨n, hn⟩ : ∃ n, e.recursion = n + 1 := Nat.exists_eq_succ_of_ne_zero (by omega)
    have := Gauge.signs_le_peak n ms {}
    rw [← hn, ← hms, ← hdepth] at this
    omega
  · have := hts.length_le
    rw [← String.length_toList]
    omega

theorem check_eq_ok_iff {c : Settings} {s : String} :
    c.check s = .ok () ↔ s.length ≤ c.maxLength ∧ nestingDepth s ≤ c.maxDepth := by
  unfold Settings.check
  split
  · rename_i h
    exact ⟨fun hok => (nomatch hok), fun hok => absurd hok.1 (by omega)⟩
  · split
    · rename_i h
      exact ⟨fun hok => (nomatch hok), fun hok => absurd hok.2 (by omega)⟩
    · exact ⟨fun _ => by omega, fun _ => rfl⟩

/-- **Where the gauge bounds the recursion.**  For a text: exactly when at no place more signs,
powers and calls are begun and not completed than the depth that was read.  For a calculator: every
text that it lets through nests within the limit exactly when the limit is zero, or when the texts
it lets through are too short to hold that many signs and a call. -/
theorem nestingDepth_bounds_iff (c : Settings) :
    (∀ s e, Expr.parse s = .ok e →
      (e.recursion ≤ nestingDepth s ↔
        ∀ pre post q, (lex s.toList).map (·.token) = pre ++ post →
          (State.due []).after pre = some q → q.load ≤ nestingDepth s)) ∧
    ((∀ s e, c.check s = .ok () → Expr.parse s = .ok e → e.recursion ≤ c.maxDepth) ↔
      c.maxDepth = 0 ∨ c.maxLength < c.maxDepth + 3) := by
  constructor
  · intro s e h
    rw [(derives_of_parse h).1.recursion_eq_peak]
    exact State.peak_le_iff
  constructor
  · intro h
    by_contra hroom
    have hlength : (String.ofList (signedCallText c.maxDepth)).length = c.maxDepth + 3 := by
      rw [← String.length_toList, String.toList_ofList]
      simp [signedCallText]
    have hdepth := nestingDepth_signedCall_le c.maxDepth
    have hcheck := check_eq_ok_iff.mpr
      (show (String.ofList (signedCallText c.maxDepth)).length ≤ c.maxLength ∧
        nestingDepth (String.ofList (signedCallText c.maxDepth)) ≤ c.maxDepth by omega)
    have := h _ _ hcheck (parse_signedCall c.maxDepth)
    rw [recursion_signedCall] at this
    omega
  · intro hroom s e hcheck h
    obtain ⟨hlength, hdepth⟩ := check_eq_ok_iff.mp hcheck
    by_cases hlt : nestingDepth s < e.recursion
    · have := nestingDepth_pos_and_length_of_lt h hlt
      omega
    · omega

/-- The standard limits, a depth of 100 in 10000 characters, are not kept. -/
theorem standard_limit_not_kept :
    ¬ ∀ s e, ({} : Settings).check s = .ok () → Expr.parse s = .ok e → e.recursion ≤ 100 := by
  intro h
  have hroom := (nestingDepth_bounds_iff {}).2.mp h
  exact absurd hroom (by decide)

/-- A power within a sign nests twice and reads 1, so a limit of one lets it through. -/
theorem recursion_not_bounded :
    Expr.parse "-2**3" = .ok (.signed .minus (.binary .power
        (.number (.ofFloat (Decimal.Literal.value ⟨['2'], [], none⟩)))
        (.number (.ofFloat (Decimal.Literal.value ⟨['3'], [], none⟩))))) ∧
      nestingDepth "-2**3" = 1 ∧ ({ maxDepth := 1 } : Settings).check "-2**3" = .ok () ∧
      ¬ ∀ s e, Expr.parse s = .ok e → e.recursion ≤ nestingDepth s := by
  have hparse : Expr.parse "-2**3" = .ok (.signed .minus (.binary .power
      (.number (.ofFloat (Decimal.Literal.value ⟨['2'], [], none⟩)))
      (.number (.ofFloat (Decimal.Literal.value ⟨['3'], [], none⟩))))) := by
    with_unfolding_all rfl
  have hdepth : nestingDepth "-2**3" = 1 := by decide +kernel
  refine ⟨hparse, hdepth, by decide +kernel, fun h => ?_⟩
  have := h _ _ hparse
  rw [hdepth] at this
  exact absurd this (by decide)

end Reckoner
