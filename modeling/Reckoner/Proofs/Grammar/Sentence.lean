/-
# `Reckoner.Proofs.Grammar.Sentence` — the grammar with repetitions

The grammar as it is usually written, with `*` for "any number of times" and `?`
for "possibly":

    sum     ::= product ((+ | -) product)*
    product ::= signed ((* | / | %) signed)*
    signed  ::= (+ | -) signed  |  power
    power   ::= atom (** signed)?
    atom    ::= name ( (sum (, sum)*)? )  |  number  |  name  |  ( sum )

`Sentence` has one constructor for each alternative and says which tree belongs to
it: a repetition folds to the left, an exponent stands to the right of its base,
parentheses leave no trace and arguments keep their order.

`sentence_iff_derives` identifies it with the grammar whose repetitions are left
recursive rules.
-/
import Reckoner.Proofs.Grammar.Automaton

namespace Reckoner

/-- One round of a repetition: an operator and the phrase behind it. -/
structure Link where
  operator : Operator
  tokens : List Token
  operand : Expr

def linkTokens (links : List Link) : List Token :=
  links.flatMap fun k => .operator k.operator :: k.tokens

/-- The tree of all rounds, folded to the left. -/
def linkFold (first : Expr) (links : List Link) : Expr :=
  links.foldl (fun left k => .binary k.operator left k.operand) first

/-- `Sentence k ts e`: the nonterminal `k` yields the tokens `ts`, and their tree is `e`. -/
inductive Sentence : Level → List Token → Expr → Prop where
  | sum {ts : List Token} {first : Expr} (links : List Link) :
      Sentence .product ts first →
      (∀ k ∈ links, k.operator = .add ∨ k.operator = .subtract) →
      (∀ k ∈ links, Sentence .product k.tokens k.operand) →
      Sentence .sum (ts ++ linkTokens links) (linkFold first links)
  | product {ts : List Token} {first : Expr} (links : List Link) :
      Sentence .signed ts first →
      (∀ k ∈ links, k.operator = .multiply ∨ k.operator = .divide ∨ k.operator = .modulo) →
      (∀ k ∈ links, Sentence .signed k.tokens k.operand) →
      Sentence .product (ts ++ linkTokens links) (linkFold first links)
  | plus {ts : List Token} {e : Expr} :
      Sentence .signed ts e → Sentence .signed (.operator .add :: ts) (.signed .plus e)
  | minus {ts : List Token} {e : Expr} :
      Sentence .signed ts e → Sentence .signed (.operator .subtract :: ts) (.signed .minus e)
  | unsigned {ts : List Token} {e : Expr} : Sentence .power ts e → Sentence .signed ts e
  | base {ts : List Token} {e : Expr} : Sentence .atom ts e → Sentence .power ts e
  | power {ts us : List Token} {b x : Expr} :
      Sentence .atom ts b → Sentence .signed us x →
      Sentence .power (ts ++ .operator .power :: us) (.binary .power b x)
  | call (f : String) (arguments : List (List Token × Expr)) :
      (∀ a ∈ arguments, Sentence .sum a.1 a.2) →
      Sentence .atom
        (.name f :: .openParen ::
          (List.intercalate [.comma] (arguments.map Prod.fst) ++ [.closeParen]))
        (.call f (arguments.map Prod.snd))
  | number (l : Decimal.Literal) : Sentence .atom [.number l] (.number l.value)
  | name (x : String) : Sentence .atom [.name x] (.name x)
  | group {ts : List Token} {e : Expr} :
      Sentence .sum ts e → Sentence .atom (.openParen :: (ts ++ [.closeParen])) e

/-! ## Repetitions are left recursions -/

/-- A repetition at level `j`, by one left recursive rule after the other. -/
theorem Derives.links {j : Level} {links : List Link}
    (hlevel : ∀ k ∈ links, k.operator.level = j ∧ k.operator.leftLevel = j)
    (hlinks : ∀ k ∈ links, Derives k.operator.rightLevel k.tokens k.operand)
    {ts : List Token} {first : Expr} (h : Derives j ts first) :
    Derives j (ts ++ linkTokens links) (linkFold first links) := by
  induction links generalizing ts first with
  | nil => simpa [linkTokens, linkFold] using h
  | cons k links ih =>
      obtain ⟨hlevel₀, hleft₀⟩ := hlevel k List.mem_cons_self
      have hk : Derives j (ts ++ .operator k.operator :: k.tokens)
          (.binary k.operator first k.operand) := by
        have hb := Derives.binary k.operator (hleft₀ ▸ h) (hlinks k List.mem_cons_self)
        exact hlevel₀ ▸ hb
      have := ih (fun k' hk' => hlevel k' (List.mem_cons_of_mem _ hk'))
        (fun k' hk' => hlinks k' (List.mem_cons_of_mem _ hk')) hk
      simpa [linkTokens, linkFold] using this

theorem DerivesList.of_arguments : ∀ (a : List Token × Expr) (as : List (List Token × Expr)),
    (∀ b ∈ a :: as, Derives .sum b.1 b.2) →
      DerivesList (List.intercalate [.comma] ((a :: as).map Prod.fst)) ((a :: as).map Prod.snd)
  | a, [], h => by
      simpa using DerivesList.last (h a List.mem_cons_self)
  | a, b :: as, h => by
      have hrest := of_arguments b as fun c hc => h c (List.mem_cons_of_mem _ hc)
      have := DerivesList.cons (h a List.mem_cons_self) hrest
      simpa [List.intercalate_cons_cons] using this

theorem Sentence.derives {k : Level} {ts : List Token} {e : Expr} (h : Sentence k ts e) :
    Derives k ts e := by
  induction h with
  | sum links _ hops _ ih ihs =>
      refine .links (fun k hk => ?_) (fun k hk => ?_) (.loosen (by decide) ih)
      · rcases hops k hk with h | h <;> rw [h] <;> exact ⟨rfl, rfl⟩
      · rcases hops k hk with h | h <;> rw [h] <;> exact ihs k hk
  | product links _ hops _ ih ihs =>
      refine .links (fun k hk => ?_) (fun k hk => ?_) (.loosen (by decide) ih)
      · rcases hops k hk with h | h | h <;> rw [h] <;> exact ⟨rfl, rfl⟩
      · rcases hops k hk with h | h | h <;> rw [h] <;> exact ihs k hk
  | plus _ ih => exact .signed rfl ih
  | minus _ ih => exact .signed rfl ih
  | unsigned _ ih => exact .loosen (by decide) ih
  | base _ ih => exact .loosen (by decide) ih
  | power _ _ ihb ihx => exact .binary .power ihb ihx
  | call f arguments _ ih =>
      cases arguments with
      | nil => exact .callNothing f
      | cons a as => exact .call f (DerivesList.of_arguments a as ih)
  | number l => exact .number l
  | name x => exact .name x
  | group _ ih => exact .group ih

/-! ## Left recursions are repetitions -/

theorem Sentence.sum_snoc {o : Operator} (ho : o = .add ∨ o = .subtract) {ts us : List Token}
    {l r : Expr} (hl : Sentence .sum ts l) (hr : Sentence .product us r) :
    Sentence .sum (ts ++ .operator o :: us) (.binary o l r) := by
  cases hl with
  | sum links hfirst hops hs =>
      have := Sentence.sum (links ++ [⟨o, us, r⟩]) hfirst
        (List.forall_mem_append.mpr ⟨hops, by simpa using ho⟩)
        (List.forall_mem_append.mpr ⟨hs, by simpa using hr⟩)
      simpa [linkTokens, linkFold] using this

theorem Sentence.product_snoc {o : Operator} (ho : o = .multiply ∨ o = .divide ∨ o = .modulo)
    {ts us : List Token} {l r : Expr} (hl : Sentence .product ts l)
    (hr : Sentence .signed us r) : Sentence .product (ts ++ .operator o :: us) (.binary o l r) := by
  cases hl with
  | product links hfirst hops hs =>
      have := Sentence.product (links ++ [⟨o, us, r⟩]) hfirst
        (List.forall_mem_append.mpr ⟨hops, by simpa using ho⟩)
        (List.forall_mem_append.mpr ⟨hs, by simpa using hr⟩)
      simpa [linkTokens, linkFold] using this

theorem Sentence.binary (o : Operator) {ts us : List Token} {l r : Expr}
    (hl : Sentence o.leftLevel ts l) (hr : Sentence o.rightLevel us r) :
    Sentence o.level (ts ++ .operator o :: us) (.binary o l r) := by
  cases o with
  | add => exact sum_snoc (Or.inl rfl) hl hr
  | subtract => exact sum_snoc (Or.inr rfl) hl hr
  | multiply => exact product_snoc (Or.inl rfl) hl hr
  | divide => exact product_snoc (Or.inr (Or.inl rfl)) hl hr
  | modulo => exact product_snoc (Or.inr (Or.inr rfl)) hl hr
  | power => exact power hl hr

theorem Sentence.loosen {j k : Level} {ts : List Token} {e : Expr} (hjk : j.rank < k.rank)
    (h : Sentence k ts e) : Sentence j ts e := by
  have hpower (hk : Level.power.rank ≤ k.rank) : Sentence .power ts e := by
    cases k with
    | power => exact h
    | atom => exact .base h
    | sum | product | signed => exact absurd hk (by decide)
  have hsigned (hk : Level.signed.rank ≤ k.rank) : Sentence .signed ts e := by
    cases k with
    | signed => exact h
    | power | atom => exact .unsigned (hpower (by decide))
    | sum | product => exact absurd hk (by decide)
  have hproduct (hk : Level.product.rank ≤ k.rank) : Sentence .product ts e := by
    cases k with
    | product => exact h
    | signed | power | atom =>
        simpa [linkTokens, linkFold] using
          Sentence.product [] (hsigned (by decide)) (by simp) (by simp)
    | sum => exact absurd hk (by decide)
  cases j with
  | sum =>
      simpa [linkTokens, linkFold] using Sentence.sum [] (hproduct hjk) (by simp) (by simp)
  | product => exact hproduct (Nat.le_of_lt hjk)
  | signed => exact hsigned (Nat.le_of_lt hjk)
  | power => exact hpower (Nat.le_of_lt hjk)
  | atom => exact absurd hjk (by cases k <;> decide)

mutual
theorem Derives.sentence : ∀ {k : Level} {ts : List Token} {e : Expr}, Derives k ts e →
    Sentence k ts e
  | _, _, _, .number l => .number l
  | _, _, _, .name x => .name x
  | _, _, _, .group h => .group h.sentence
  | _, _, _, .callNothing f => .call f [] (by simp)
  | _, _, _, .call f h => by
      obtain ⟨arguments, -, rfl, rfl, hs⟩ := h.sentences
      exact .call f arguments hs
  | _, _, _, .signed (o := o) hs h => by
      have ih := h.sentence
      cases o with
      | add =>
          obtain rfl := Option.some.inj hs
          exact .plus ih
      | subtract =>
          obtain rfl := Option.some.inj hs
          exact .minus ih
      | multiply | divide | modulo | power => exact nomatch hs
  | _, _, _, .binary o hl hr => .binary o hl.sentence hr.sentence
  | _, _, _, .loosen hjk h => h.sentence.loosen hjk
theorem DerivesList.sentences : ∀ {ts : List Token} {es : List Expr}, DerivesList ts es →
    ∃ arguments : List (List Token × Expr), arguments ≠ [] ∧
      List.intercalate [.comma] (arguments.map Prod.fst) = ts ∧ arguments.map Prod.snd = es ∧
        ∀ a ∈ arguments, Sentence .sum a.1 a.2
  | _, _, @DerivesList.last ts e h =>
      ⟨[(ts, e)], List.cons_ne_nil _ _, List.intercalate_singleton, rfl, by simpa using h.sentence⟩
  | _, _, @DerivesList.cons ts _ e _ h hs => by
      obtain ⟨arguments, hne, htokens, htrees, hall⟩ := hs.sentences
      refine ⟨(ts, e) :: arguments, List.cons_ne_nil _ _, ?_, by rw [List.map_cons, htrees], ?_⟩
      · rw [List.map_cons, List.intercalate_cons_of_ne_nil (by simpa using hne), htokens]
        simp
      · intro a ha
        rcases List.mem_cons.mp ha with rfl | ha
        · exact h.sentence
        · exact hall a ha
end

/-- The grammar with repetitions and the one with left recursions give the same tokens the same
trees. -/
theorem sentence_iff_derives {k : Level} {ts : List Token} {e : Expr} :
    Sentence k ts e ↔ Derives k ts e :=
  ⟨Sentence.derives, Derives.sentence⟩

end Reckoner
