/-
# `Reckoner.Proofs.Grammar.Literals` — the literals of a text, and the first out of range

A text that the grammar accepts can fail only by a literal.  Its tree is built phrase by
phrase, and `Builds` says how: the parts of a phrase one after the other, and nothing more
once a literal was met that no double is near to.  Operands stand left and right of their
operator and arguments in a row, so however phrases are nested this visits the literals as
they stand in the text: `builds_iff` says that the phrase ends with the first of them that is
out of range, and with its tree if none is.

Reading a text comes to the same, and which literals are out of range is a matter of the
numbers they denote (`literals_read_exactly`).
-/
import Reckoner.Proofs.Grammar.Print
import Reckoner.Proofs.Outcome

namespace Reckoner

open Binary64 (NearestEven overflowBound)

/-! ## Building phrase by phrase -/

mutual
/-- `Builds k ts r`: building the phrase `ts` ends with `r`, which is its tree or the literal at
which building stopped. -/
inductive Builds : Level → List Token → Except Decimal.Literal Expr → Prop where
  | number {l : Decimal.Literal} :
      l.value.isFinite = true → Builds .atom [.number l] (.ok (.number l.value))
  | outOfRange {l : Decimal.Literal} :
      l.value.isFinite = false → Builds .atom [.number l] (.error l)
  | name (x : String) : Builds .atom [.name x] (.ok (.name x))
  | group {ts : List Token} {r : Except Decimal.Literal Expr} :
      Builds .sum ts r → Builds .atom (.openParen :: (ts ++ [.closeParen])) r
  | callNothing (f : String) :
      Builds .atom [.name f, .openParen, .closeParen] (.ok (.call f []))
  | call (f : String) {ts : List Token} {r : Except Decimal.Literal (List Expr)} :
      BuildsList ts r →
      Builds .atom (.name f :: .openParen :: (ts ++ [.closeParen])) (r.map (.call f))
  | signed {o : Operator} {s : Sign} {ts : List Token} {r : Except Decimal.Literal Expr} :
      o.sign? = some s → Builds .signed ts r →
      Builds .signed (.operator o :: ts) (r.map (.signed s))
  | binary (o : Operator) {ts us : List Token} {e : Expr} {r : Except Decimal.Literal Expr} :
      Builds o.leftLevel ts (.ok e) → Builds o.rightLevel us r →
      Builds o.level (ts ++ .operator o :: us) (r.map (.binary o e))
  | stopsLeft (o : Operator) {ts us : List Token} {l : Decimal.Literal} {e : Expr} :
      Builds o.leftLevel ts (.error l) → Derives o.rightLevel us e →
      Builds o.level (ts ++ .operator o :: us) (.error l)
  | loosen {j k : Level} {ts : List Token} {r : Except Decimal.Literal Expr} :
      j.rank < k.rank → Builds k ts r → Builds j ts r

/-- `BuildsList ts r`: building the phrases `ts`, which have commas between them, ends with `r`. -/
inductive BuildsList : List Token → Except Decimal.Literal (List Expr) → Prop where
  | last {ts : List Token} {r : Except Decimal.Literal Expr} :
      Builds .sum ts r → BuildsList ts (r.map fun e => [e])
  | cons {ts us : List Token} {e : Expr} {r : Except Decimal.Literal (List Expr)} :
      Builds .sum ts (.ok e) → BuildsList us r →
      BuildsList (ts ++ .comma :: us) (r.map fun es => e :: es)
  | stopsFirst {ts us : List Token} {l : Decimal.Literal} {es : List Expr} :
      Builds .sum ts (.error l) → DerivesList us es → BuildsList (ts ++ .comma :: us) (.error l)
end

/-- The first literal out of range among some tokens, or else the value given. -/
def firstOutOfRange {α : Type} (ts : List Token) (a : α) : Except Decimal.Literal α :=
  match ts.findSome? Token.outOfRange? with
  | some l => .error l
  | none => .ok a

section FirstOutOfRange

variable {α β : Type} (ts us : List Token) (a : α)

theorem map_firstOutOfRange (f : α → β) :
    (firstOutOfRange ts a).map f = firstOutOfRange ts (f a) := by
  rw [firstOutOfRange, firstOutOfRange]
  cases ts.findSome? Token.outOfRange? <;> rfl

variable {ts us a}

theorem firstOutOfRange_cons {t : Token} (ht : t.outOfRange? = none) :
    firstOutOfRange (t :: ts) a = firstOutOfRange ts a := by
  rw [firstOutOfRange, List.findSome?_cons, ht, ← firstOutOfRange]

theorem firstOutOfRange_append_of_ok {b : β} (h : firstOutOfRange ts b = .ok b) :
    firstOutOfRange (ts ++ us) a = firstOutOfRange us a := by
  rw [firstOutOfRange] at h ⊢
  rw [List.findSome?_append]
  cases hfirst : ts.findSome? Token.outOfRange? with
  | none => rw [Option.none_or, ← firstOutOfRange]
  | some l => rw [hfirst] at h; cases h

theorem firstOutOfRange_append_of_error {b : β} {l : Decimal.Literal}
    (h : firstOutOfRange ts b = .error l) : firstOutOfRange (ts ++ us) a = .error l := by
  rw [firstOutOfRange] at h ⊢
  rw [List.findSome?_append]
  cases hfirst : ts.findSome? Token.outOfRange? with
  | none => rw [hfirst] at h; cases h
  | some l' => rw [hfirst] at h; rw [Except.error.inj h, Option.some_or]

theorem firstOutOfRange_closed :
    firstOutOfRange (ts ++ [.closeParen]) a = firstOutOfRange ts a := by
  have hnone : Token.closeParen.outOfRange? = none := rfl
  rw [firstOutOfRange, List.findSome?_append, List.findSome?_singleton, hnone, Option.or_none,
    ← firstOutOfRange]

theorem firstOutOfRange_eq_ok {b : α} (h : firstOutOfRange ts a = .ok b) : b = a := by
  rw [firstOutOfRange] at h
  cases hfirst : ts.findSome? Token.outOfRange? with
  | none => rw [hfirst] at h; exact (Except.ok.inj h).symm
  | some l => rw [hfirst] at h; cases h

end FirstOutOfRange

theorem builds_literal (l : Decimal.Literal) :
    Builds .atom [.number l] (firstOutOfRange [.number l] (.number l.value)) := by
  rw [firstOutOfRange, List.findSome?_singleton, Token.outOfRange?]
  cases h : l.value.isFinite with
  | true => exact .number h
  | false => exact .outOfRange h

mutual
/-- A phrase can be built, and building it stops where it should. -/
theorem Derives.builds : ∀ {k : Level} {ts : List Token} {e : Expr}, Derives k ts e →
    Builds k ts (firstOutOfRange ts e)
  | _, _, _, .number l => builds_literal l
  | _, _, _, .name x => .name x
  | _, _, _, .group h => by
      rw [firstOutOfRange_cons rfl, firstOutOfRange_closed]
      exact .group h.builds
  | _, _, _, .callNothing f => .callNothing f
  | _, _, _, .call f h => by
      rw [firstOutOfRange_cons rfl, firstOutOfRange_cons rfl, firstOutOfRange_closed,
        ← map_firstOutOfRange]
      exact .call f h.builds
  | _, _, _, .signed ho h => by
      rw [firstOutOfRange_cons rfl, ← map_firstOutOfRange]
      exact .signed ho h.builds
  | _, _, _, @Derives.binary o ts _ e _ hl hr => by
      have hbuilds := hl.builds
      cases hleft : firstOutOfRange ts e with
      | ok e' =>
          obtain rfl := firstOutOfRange_eq_ok hleft
          rw [hleft] at hbuilds
          rw [firstOutOfRange_append_of_ok hleft, firstOutOfRange_cons rfl, ← map_firstOutOfRange]
          exact .binary o hbuilds hr.builds
      | error l =>
          rw [hleft] at hbuilds
          rw [firstOutOfRange_append_of_error hleft]
          exact .stopsLeft o hbuilds hr
  | _, _, _, .loosen hlt h => .loosen hlt h.builds
theorem DerivesList.builds : ∀ {ts : List Token} {es : List Expr}, DerivesList ts es →
    BuildsList ts (firstOutOfRange ts es)
  | _, _, .last h => by
      rw [← map_firstOutOfRange _ _ fun e => [e]]
      exact .last h.builds
  | _, _, @DerivesList.cons ts _ e _ h hs => by
      have hbuilds := h.builds
      cases hfirst : firstOutOfRange ts e with
      | ok e' =>
          obtain rfl := firstOutOfRange_eq_ok hfirst
          rw [hfirst] at hbuilds
          rw [firstOutOfRange_append_of_ok hfirst, firstOutOfRange_cons rfl, ← map_firstOutOfRange]
          exact .cons hbuilds hs.builds
      | error l =>
          rw [hfirst] at hbuilds
          rw [firstOutOfRange_append_of_error hfirst]
          exact .stopsFirst hbuilds hs
end

mutual
theorem Builds.derives : ∀ {k : Level} {ts : List Token} {r : Except Decimal.Literal Expr},
    Builds k ts r → ∃ e, Derives k ts e ∧ r = firstOutOfRange ts e
  | _, _, _, .number (l := l) h => by
      refine ⟨_, .number l, ?_⟩
      rw [firstOutOfRange, List.findSome?_singleton, Token.outOfRange?, if_pos h]
  | _, _, _, .outOfRange (l := l) h => by
      refine ⟨_, .number l, ?_⟩
      rw [firstOutOfRange, List.findSome?_singleton, Token.outOfRange?, h]
      rfl
  | _, _, _, .name x => ⟨_, .name x, rfl⟩
  | _, _, _, .group h => by
      obtain ⟨e, he, rfl⟩ := h.derives
      exact ⟨e, .group he, by rw [firstOutOfRange_cons rfl, firstOutOfRange_closed]⟩
  | _, _, _, .callNothing f => ⟨_, .callNothing f, rfl⟩
  | _, _, _, .call f h => by
      obtain ⟨es, hes, rfl⟩ := h.derives
      refine ⟨_, .call f hes, ?_⟩
      rw [firstOutOfRange_cons rfl, firstOutOfRange_cons rfl, firstOutOfRange_closed,
        map_firstOutOfRange]
  | _, _, _, .signed ho h => by
      obtain ⟨e, he, rfl⟩ := h.derives
      exact ⟨_, .signed ho he, by rw [firstOutOfRange_cons rfl, map_firstOutOfRange]⟩
  | _, _, _, .binary o hl hr => by
      obtain ⟨e, he, hleft⟩ := hl.derives
      obtain ⟨e', he', rfl⟩ := hr.derives
      obtain rfl := firstOutOfRange_eq_ok hleft.symm
      refine ⟨_, .binary o he he', ?_⟩
      rw [firstOutOfRange_append_of_ok hleft.symm, firstOutOfRange_cons rfl, map_firstOutOfRange]
  | _, _, _, .stopsLeft o hl hr => by
      obtain ⟨e, he, hleft⟩ := hl.derives
      exact ⟨_, .binary o he hr, (firstOutOfRange_append_of_error hleft.symm).symm⟩
  | _, _, _, .loosen hlt h => by
      obtain ⟨e, he, hr⟩ := h.derives
      exact ⟨e, .loosen hlt he, hr⟩
theorem BuildsList.derives : ∀ {ts : List Token} {r : Except Decimal.Literal (List Expr)},
    BuildsList ts r → ∃ es, DerivesList ts es ∧ r = firstOutOfRange ts es
  | _, _, .last h => by
      obtain ⟨e, he, rfl⟩ := h.derives
      exact ⟨[e], .last he, map_firstOutOfRange _ _ _⟩
  | _, _, .cons h hs => by
      obtain ⟨e, he, hfirst⟩ := h.derives
      obtain ⟨es, hes, rfl⟩ := hs.derives
      obtain rfl := firstOutOfRange_eq_ok hfirst.symm
      refine ⟨_, .cons he hes, ?_⟩
      rw [firstOutOfRange_append_of_ok hfirst.symm, firstOutOfRange_cons rfl, map_firstOutOfRange]
  | _, _, .stopsFirst h hs => by
      obtain ⟨e, he, hfirst⟩ := h.derives
      exact ⟨_, .cons he hs, (firstOutOfRange_append_of_error hfirst.symm).symm⟩
end

/-- Building a phrase ends with the first literal out of range, or with the tree of the phrase. -/
theorem builds_iff {k : Level} {ts : List Token} {e : Expr} (h : Derives k ts e)
    {r : Except Decimal.Literal Expr} : Builds k ts r ↔ r = firstOutOfRange ts e := by
  constructor
  · intro hbuilds
    obtain ⟨e', he', hr⟩ := hbuilds.derives
    rwa [h.unique he']
  · rintro rfl
    exact h.builds

/-! ## Which literals are out of range -/

theorem firstOutOfRange_eq_ok_iff {α : Type} {ts : List Token} {a : α} :
    firstOutOfRange ts a = .ok a ↔ ∀ l, .number l ∈ ts → l.exact < overflowBound := by
  simp only [← Decimal.Literal.isFinite_value_iff, ← findSome?_outOfRange?_eq_none_iff,
    firstOutOfRange]
  cases ts.findSome? Token.outOfRange? <;> simp

theorem firstOutOfRange_of_first {α : Type} {l : Decimal.Literal} {before after : List Token}
    (a : α) (hbefore : ∀ l', .number l' ∈ before → l'.exact < overflowBound)
    (hl : overflowBound ≤ l.exact) :
    firstOutOfRange (before ++ .number l :: after) a = .error l := by
  have hlost : ¬l.value.isFinite = true := by
    rw [l.isFinite_value_iff]
    exact not_lt.mpr hl
  rw [firstOutOfRange_append_of_ok (firstOutOfRange_eq_ok_iff (a := ()).mpr hbefore),
    firstOutOfRange, List.findSome?_cons, Token.outOfRange?, if_neg hlost]

/-! ## Reading texts -/

section Read

variable {s : String} {ts : List Token} {e : Expr} (hts : Munches s.toList ts)
  (h : Sentence .sum ts e)

include hts h

theorem parse_eq_firstOutOfRange :
    Expr.parse s = (firstOutOfRange ts e).mapError .literalOutOfRange := by
  have hread := ofTokens_eq_ok_iff.mpr h.derives
  have hs := hts.isEmpty_eq_false (ne_nil_of_endsOperand h.derives.balanced.2)
  rw [parse_eq hs, (munches_iff.mp hts).1, hread, firstOutOfRange]
  cases ts.findSome? Token.outOfRange? <;> rfl

/-- **Literals are read exactly.**  Reading a text that the grammar accepts fails if and only if
one of its literals denotes a number from the overflow bound on.  Then the report tells the first
such literal of the text.  Otherwise every number of the tree is the double nearest to what its
literal denotes, and has no sign.  Reading comes to what building phrase by phrase does. -/
theorem literals_read_exactly :
    ((∃ fault, Expr.parse s = .error fault) ↔ ∃ l, .number l ∈ ts ∧ overflowBound ≤ l.exact) ∧
    (∀ (l : Decimal.Literal) (before after : List Token), ts = before ++ .number l :: after →
      (∀ l', .number l' ∈ before → l'.exact < overflowBound) → overflowBound ≤ l.exact →
      ∃ fault, Expr.parse s = .error fault ∧
        fault.report = {
          kind := .malformed
          message := "Numeric literal out of range"
          notes := [("literal", String.ofList l.text)] }) ∧
    ((∀ l, .number l ∈ ts → l.exact < overflowBound) →
      Expr.parse s = .ok e ∧
        List.Forall₂ (fun l v => ∃ z : Float, v = .ofFloat z ∧ NearestEven z l.exact ∧
          z.toBits.toNat < 2 ^ 63) (ts.filterMap Token.literal?) e.numbers) ∧
    ∀ r, Builds .sum ts r ↔ Expr.parse s = r.mapError .literalOutOfRange := by
  have hparse := parse_eq_firstOutOfRange hts h
  refine ⟨⟨?_, ?_⟩, ?_, ?_, ?_⟩
  · rintro ⟨fault, hfault⟩
    by_contra hnone
    have hrange : ∀ l, .number l ∈ ts → l.exact < overflowBound := fun l hl =>
      not_le.mp fun hle => hnone ⟨l, hl, hle⟩
    rw [hparse, firstOutOfRange_eq_ok_iff.mpr hrange] at hfault
    cases hfault
  · rintro ⟨l, hmem, hl⟩
    cases hfirst : firstOutOfRange ts e with
    | ok e' =>
        obtain rfl := firstOutOfRange_eq_ok hfirst
        exact absurd (firstOutOfRange_eq_ok_iff.mp hfirst l hmem) (not_lt.mpr hl)
    | error l' => exact ⟨.literalOutOfRange l', by rw [hparse, hfirst]; rfl⟩
  · rintro l before after rfl hbefore hl
    exact ⟨.literalOutOfRange l, by rw [hparse, firstOutOfRange_of_first e hbefore hl]; rfl, rfl⟩
  · intro hrange
    refine ⟨by rw [hparse, firstOutOfRange_eq_ok_iff.mpr hrange]; rfl, ?_⟩
    rw [h.derives.numbers_eq, literalValues, List.forall₂_map_right_iff, List.forall₂_same]
    intro l hl
    have hmem := mem_filterMap_literal?.mp hl
    exact ⟨l.value, rfl, Decimal.Literal.nearestEven_value (hrange l hmem), l.toBits_value_lt⟩
  · intro r
    rw [builds_iff h.derives, hparse]
    constructor
    · rintro rfl
      rfl
    · intro heq
      exact (mapError_injective (fun _ _ => ParseError.literalOutOfRange.inj) heq).symm

end Read

/-- Of two literals out of range the first is told, deep as it stands in an exponent. -/
theorem literals_read_exactly_nested :
    let text := "f(0.1, (2 ** 1e309)) - 1e400"
    let l : Decimal.Literal := ⟨['1'], [], some ⟨'e', [], ['3', '0', '9']⟩⟩
    overflowBound ≤ l.exact ∧ ∃ fault, Expr.parse text = .error fault ∧
      fault.report.notes = [("literal", "1e309")] := by
  intro text l
  have hbound : overflowBound ≤ l.exact := by
    rw [← not_lt, ← l.isFinite_value_iff]
    decide +kernel
  let before : List Token := [.name "f", .openParen, .number ⟨['0'], ['1'], none⟩, .comma,
    .openParen, .number ⟨['2'], [], none⟩, .operator .power]
  let after : List Token := [.closeParen, .closeParen, .operator .subtract,
    .number ⟨['1'], [], some ⟨'e', [], ['4', '0', '0']⟩⟩]
  have hlex : (lex text.toList).map (·.token) = before ++ .number l :: after := by
    decide +kernel
  have hread : Expr.ofTokens (before ++ .number l :: after) = .ok (.binary .subtract
      (.call "f" [.number (.ofFloat (Decimal.Literal.value ⟨['0'], ['1'], none⟩)),
        .binary .power (.number (.ofFloat (Decimal.Literal.value ⟨['2'], [], none⟩)))
          (.number (.ofFloat l.value))])
      (.number (.ofFloat (Decimal.Literal.value
        ⟨['1'], [], some ⟨'e', [], ['4', '0', '0']⟩⟩)))) := rfl
  rw [ofTokens_eq_ok_iff, ← hlex] at hread
  obtain ⟨ts, hts, hsentence⟩ := derives_lex_iff.mp hread
  have htokens : ts = before ++ .number l :: after := (munches_iff.mp hts).1.symm.trans hlex
  have hbefore : ∀ l', .number l' ∈ before → l'.exact < overflowBound := by
    intro l' hl'
    rw [← l'.isFinite_value_iff]
    simp only [before, List.mem_cons, Token.number.injEq, reduceCtorEq, false_or, List.not_mem_nil,
      or_false] at hl'
    rcases hl' with rfl | rfl
    · decide +kernel
    · decide +kernel
  obtain ⟨fault, hparse, hreport⟩ :=
    (literals_read_exactly hts hsentence).2.1 l before after htokens hbefore hbound
  exact ⟨hbound, fault, hparse, by rw [hreport]; with_unfolding_all rfl⟩

end Reckoner
