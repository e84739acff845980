/-
# `Reckoner.Proofs.Choice.Levels` — powers, signs, products and sums

A phrase of one level is made of phrases of the next, with the operators of the level
between them.  Each operator leads to a shorter text, so the fate of all phrases follows
by induction on the length (`phrasesBelow`).

One place is peculiar.  Behind a power whose exponent leads astray, the rule for products
takes the first star of the operator for a product; but the second star is no operand.
-/
import Reckoner.Proofs.Choice.Atoms

namespace Reckoner

variable {text : List Char}

/-- What becomes of the part of a phrase at level `k` behind its first operand; `build` makes the
tree of the nodes there. -/
inductive MoreFate (k : Level) (build : List (Node Rule) → Except Report Expr)
    (stack : List Frame) (q : State) (cs : List Char) : Outcome Rule → Prop where
  | whole {nodes : List (Node Rule)} {ts : List Token} {q' : State} {e : Expr}
      {rest : List Char} :
      Reaches q cs ts q' rest → q'.Holds k stack e → Ended k q' rest → build nodes = told ts e →
      MoreFate k build stack q cs (.found nodes rest (k.record rest))
  | broken {nodes : List (Node Rule)} {rest here : List Char} {x : Expectation} :
      Stops q cs here x → Blocked k here rest →
      MoreFate k build stack q cs (.found nodes rest (x.record here))

theorem MoreFate.fate {k : Level} {build : List (Node Rule) → Except Report Expr}
    {stack : List Frame} {q : State} {cs mid rest w : List Char} {r : Rule} {n : Node Rule}
    {nodes : List (Node Rule)} {ts : List Token} {t : Tried Rule}
    (h : MoreFate k build stack q mid (.found nodes rest t))
    (hreach : Reaches (.due stack) cs ts q mid)
    (hbuild : ∀ us e, build nodes = told us e →
      (Node.node r w (n :: nodes)).build k = told (ts ++ us) e) :
    Fate k stack cs (.found [.node r w (n :: nodes)] rest t) := by
  cases h with
  | whole hmore hheld hended hnodes =>
      exact .whole (hreach.append hmore) hheld hended (hbuild _ _ hnodes)
  | broken hstops hblocked => exact .broken (hreach.stops hstops) hblocked

theorem Ended.loosen {j k : Level} {q : State} {rest : List Char} (h : Ended j q rest)
    (hjk : j.rank ≤ k.rank) : Ended k q rest :=
  ⟨fun o r hnext => Nat.lt_of_lt_of_le (h.operator o r hnext) hjk, h.openParen⟩

/-! ## Powers -/

theorem Blocked.power {here rest : List Char} (h : Blocked .signed here rest) :
    Blocked .power here rest := by
  cases h with
  | openParen hskip hnext hle => exact .openParen hskip hnext hle
  | @operator o r hskip hnext hrank hle =>
      refine .operator hskip hnext ?_ hle
      revert hrank
      cases o <;> decide

theorem Ended.signed {q : State} {rest : List Char} (h : Ended .power q rest) :
    Ended .signed q rest := by
  refine ⟨fun o r hnext => ?_, h.openParen⟩
  have hlt := h.operator o r hnext
  revert hlt
  cases o <;> decide

theorem buildExponent_cons {n : Node Rule} {ts : List Token} {l r : Expr}
    (hn : n.build .signed = told ts r) :
    buildExponent l [operatorNode .power, n]
      = told (.operator .power :: ts) (.binary .power l r) := by
  show (n.build .signed >>= fun r => pure (Expr.binary .power l r)) = _
  rw [hn, told_cons rfl]
  exact told_map rfl

theorem exists_exponent {n : Nat} (ih : PhrasesBelow text n) {stack : List Frame} {q : State}
    {l : Expr} {cs : List Char} {t : Tried Rule} (hn : cs.length < n) (hcs : Skipped cs)
    (ht : cs.length < t.place.length) (hheld : q.Holds .atom stack l)
    (hparen : ∀ r, next? cs = some (.openParen, r) → q.step .openParen = none)
    (hstack : Admits .power stack) :
    ∃ nodes rest t', Matches Rule.body text
        (.opt (.seq (.rule (.operator .power)) (.rule .signed))) cs t (.found nodes rest t') ∧
      MoreFate .power (buildExponent l) stack q cs (.found nodes rest t') := by
  by_cases hpower : ∃ r, next? cs = some (.operator .power, r)
  · obtain ⟨r, hnext⟩ := hpower
    have hoperator : Matches Rule.body text (.rule (.operator .power)) cs t
        (.found [operatorNode .power] r t) := matches_operator (text_append_of_next? hnext)
    have hlt := length_dropWhile_lt hnext
    have hstep := hheld.step_operator (o := .power) (hstack .power (Nat.le_refl _))
    have hreach := Reaches.step hnext hstep (.here _ _)
    obtain ⟨o, hmatch, hfate⟩ := ih .signed (t := t) (Nat.lt_trans hlt hn)
      (admits_right .power l stack)
      ⟨skipped_dropWhile r, Or.inl (Nat.lt_trans hlt ht), fun _ _ => rfl⟩
    cases hfate with
    | whole hphrase hheld' hended hbuild =>
        exact ⟨_, _, _, .opt (.seq hoperator hmatch),
          .whole (hreach.append hphrase) (State.Holds.binary (o := .power) hheld')
            (hended.loosen (by decide)) (buildExponent_cons hbuild)⟩
    | broken hstops hblocked =>
        exact ⟨_, _, _, .opt (.seq hoperator hmatch), .broken (hreach.stops hstops) hblocked.power⟩
    | missing hstops =>
        exact ⟨_, _, _, .notOpt (.not_seq hoperator hmatch),
          .broken (hreach.stops hstops) (.operator hcs hnext (by decide)
            (Nat.le_trans hstops.length_le (length_dropWhile_le r)))⟩
  · have hnot : ∀ r, next? cs ≠ some (.operator .power, r) := fun r hr => hpower ⟨r, hr⟩
    have hoperator : Matches Rule.body text (.rule (.operator .power)) cs t _ :=
      not_matches_operator hnot fun _ => hnot
    rw [Tried.Fresh.track (Or.inl ht)] at hoperator
    refine ⟨_, _, _, .notOpt (.notFirst hoperator),
      .whole (.here q cs) (hheld.loosen (by decide)) ⟨fun o r hnext => ?_, hparen⟩ rfl⟩
    cases o with
    | power => exact absurd hnext (hnot r)
    | add | subtract | multiply | divide | modulo => decide

theorem exists_powerFate {stack : List Frame} {cs r : List Char} {u : Token} {t : Tried Rule}
    (ih : PhrasesBelow text cs.length) (hnext : next? cs = some (u, r))
    (hu : u.startsAtom = true) (ht : cs.length ≤ t.place.length) (hstack : Admits .power stack) :
    ∃ o, Matches Rule.body text (.rule .power) cs t o ∧ Fate .power stack cs o := by
  obtain ⟨o, hatom, hfate⟩ := exists_atomFate ih stack hnext hu ht
  cases hfate with
  | @whole n ts q l rest t' hreach hplace hheld hparen hbuild =>
      obtain ⟨nodes, rest', t'', hexponent, hmore⟩ := exists_exponent ih
        (hreach.length_lt hheld) (skipped_dropWhile rest) hplace hheld hparen hstack
      refine ⟨_, .rule (.seq hatom hexponent), hmore.fate hreach fun us e hnodes => ?_⟩
      show (n.build .atom >>= fun l => buildExponent l nodes) = _
      rw [hbuild]
      exact told_bind hnodes
  | @broken nodes rest here s x hstops hopen hle =>
      have hlt : here.length < (rest.dropWhile isSeparator).length :=
        Nat.lt_of_le_of_lt hle (length_lt_of_next? hopen)
      have hoperator : Matches Rule.body text (.rule (.operator .power))
          (rest.dropWhile isSeparator) (x.record here) _ :=
        not_matches_operator (by simp [hopen]) fun _ => by simp [hopen]
      rw [Tried.track_ahead hlt] at hoperator
      exact ⟨_, .rule (.seq hatom (.notOpt (.notFirst hoperator))),
        .broken hstops (.openParen (skipped_dropWhile rest) hopen hle)⟩
  | missing hstops hlt =>
      exact ⟨_, .notRule_ahead (.notFirst hatom) hlt, .missing hstops⟩

/-! ## Signs -/

theorem Matches.eq_node {body : Rule → Pattern Rule} {r : Rule} {cs rest : List Char}
    {t t' : Tried Rule} {nodes : List (Node Rule)}
    (h : Matches body text (.rule r) cs t (.found nodes rest t')) :
    ∃ w inner, nodes = [.node r w inner] := by
  cases h with
  | rule h => exact ⟨_, _, rfl⟩

theorem build_sign {o : Operator} {s : Sign} {w : List Char} {n : Node Rule} {ts : List Token}
    {e : Expr} (hs : o.sign? = some s) (hn : n.build .signed = told ts e) :
    (Node.node .signed w [operatorNode o, n]).build .signed
      = told (.operator o :: ts) (.signed s e) := by
  rw [told_cons rfl]
  have hmap : (n.build .signed >>= fun e => pure (Expr.signed s e)) = told ts (.signed s e) := by
    rw [hn]
    exact told_map rfl
  cases o with
  | add | subtract =>
      obtain rfl := Option.some.inj hs
      exact hmap
  | multiply | divide | modulo | power => exact absurd hs (by simp [Operator.sign?])

theorem exists_signedFate_of_sign {stack : List Frame} {cs r : List Char} {t : Tried Rule}
    {o : Operator} {s : Sign} (ih : PhrasesBelow text cs.length)
    (hnext : next? cs = some (.operator o, r)) (hs : o.sign? = some s)
    (ht : cs.length ≤ t.place.length) :
    ∃ o, Matches Rule.body text (.rule .signed) cs t o ∧ Fate .signed stack cs o := by
  have hlt := length_dropWhile_lt hnext
  have hsign : o ∈ [Operator.add, .subtract] ∧ o ≠ .power := by
    revert hs
    cases o <;> simp [Operator.sign?]
  obtain ⟨t', hoperator, ht'⟩ := matches_oneOf text hnext hsign.1 hsign.2 ht
  have hstep : (State.due stack).step (.operator o) = some (.due (.signed s :: stack)) := by
    rw [State.step, hs]
    rfl
  have hreach := Reaches.step hnext hstep (.here _ _)
  obtain ⟨o', hmatch, hfate⟩ := ih .signed (t := t') hlt (admits_signed s stack)
    ⟨skipped_dropWhile r, Or.inl (Nat.lt_of_lt_of_le hlt ht'), fun _ _ => rfl⟩
  cases hfate with
  | whole hphrase hheld hended hbuild =>
      exact ⟨_, .rule (.first (.seq hoperator hmatch)),
        .whole (hreach.append hphrase) hheld.signed hended (build_sign hs hbuild)⟩
  | broken hstops hblocked =>
      exact ⟨_, .rule (.first (.seq hoperator hmatch)), .broken (hreach.stops hstops) hblocked⟩
  | @missing here x hstops =>
      have hlt' : here.length < cs.length := Nat.lt_of_le_of_lt hstops.length_le hlt
      have hpower : Matches Rule.body text (.rule .power) cs (x.record here) _ :=
        not_matches_power_ahead (by simp [hnext, Token.startsAtom]) hlt'
      exact ⟨_, .notRule_ahead (.second (.not_seq hoperator hmatch) hpower) hlt',
        .missing (hreach.stops hstops)⟩

theorem exists_signedFate_of_atom {stack : List Frame} {cs r : List Char} {t : Tried Rule}
    {u : Token} (ih : PhrasesBelow text cs.length) (hnext : next? cs = some (u, r))
    (hu : u.startsAtom = true) (ht : t.Fresh cs) (hstack : Admits .signed stack) :
    ∃ o, Matches Rule.body text (.rule .signed) cs t o ∧ Fate .signed stack cs o := by
  have hnosign : ∀ o r, next? cs ≠ some (.operator o, r) := by
    intro o r' hnext'
    obtain ⟨rfl, -⟩ := Prod.mk.inj (Option.some.inj (hnext.symm.trans hnext'))
    exact absurd hu (by simp [Token.startsAtom])
  have hsigns : Matches Rule.body text (.seq (.oneOf .add [.subtract]) (.rule .signed)) cs t _ :=
    .notFirst (not_matches_oneOf (fun o _ => hnosign o) fun _ => hnosign .power)
  obtain ⟨o, hpower, hfate⟩ := exists_powerFate ih hnext hu
    (Tried.length_le_trackAll ht.length_le _) (hstack.tighten (by decide))
  cases hfate with
  | whole hreach hheld hended hbuild =>
      obtain ⟨w, inner, hnode⟩ := hpower.eq_node
      obtain rfl := List.singleton_inj.mp hnode
      exact ⟨_, .rule (.second hsigns hpower),
        .whole hreach (hheld.loosen (by decide)) hended.signed hbuild⟩
  | broken hstops hblocked =>
      exact ⟨_, .rule (.second hsigns hpower), .broken hstops (hblocked.loosen (by decide))⟩
  | missing hstops =>
      exact ⟨_, hstops.notRule ht (.second hsigns hpower), .missing hstops⟩

theorem Ready.stops {stack : List Frame} {cs : List Char} {t : Tried Rule}
    (h : Ready stack cs t) (hno : ∀ u r, next? cs = some (u, r) → u.startsOperand = false) :
    Stops (.due stack) cs cs .operand := by
  have hstuck : (State.due stack).Stuck cs := by
    unfold State.Stuck
    cases hnext : next? cs with
    | none => rfl
    | some p =>
        obtain ⟨u, r⟩ := p
        have hu := hno u r hnext
        show (State.due stack).step u = none
        cases u with
        | closeParen => exact h.not_close r hnext
        | operator o =>
            rw [State.step, Option.map_eq_none_iff]
            exact Option.isNone_iff_eq_none.mp (Option.isSome_eq_false_iff.mp hu)
        | comma | stray c => rfl
        | number l | name x | openParen => exact nomatch hu
  exact hstuck.stops

theorem exists_signedFate {stack : List Frame} {cs : List Char} {t : Tried Rule}
    (ih : PhrasesBelow text cs.length) (hready : Ready stack cs t)
    (hstack : Admits .signed stack) :
    ∃ o, Matches Rule.body text (.rule .signed) cs t o ∧ Fate .signed stack cs o := by
  by_cases hno : ∀ u r, next? cs = some (u, r) → u.startsOperand = false
  · exact ⟨_, not_matches_signed hno hready.fresh, .missing (hready.stops hno)⟩
  · simp only [not_forall, exists_prop] at hno
    obtain ⟨u, r, hnext, hu⟩ := hno
    cases u with
    | operator o =>
        obtain ⟨s, hs⟩ := Option.isSome_iff_exists.mp (Bool.eq_true_of_not_eq_false hu)
        exact exists_signedFate_of_sign ih hnext hs hready.fresh.length_le
    | number l | name x | openParen =>
        exact exists_signedFate_of_atom ih hnext rfl hready.fresh hstack
    | closeParen | comma | stray c => exact absurd rfl hu

/-! ## Chains -/

/-- The rule `r'` is for chains at level `k`: phrases of level `j`, for which there is the rule `r`,
with the operators `o :: os` between them. -/
inductive Chained : Level → Level → Rule → Rule → Operator → List Operator → Prop where
  | sum : Chained .sum .product .sum .product .add [.subtract]
  | product : Chained .product .signed .product .signed .multiply [.divide, .modulo]

theorem startsOperand_first_star (cs : List Char) :
    (Token.first '*' cs).1.startsOperand = false := by
  by_cases hcs : ∀ c ∈ cs.head?, c ≠ '*'
  · rw [Token.first_star_of_head_ne hcs]
    rfl
  · cases cs with
    | nil => exact absurd (fun c hc => nomatch hc) hcs
    | cons c cs =>
        obtain rfl : c = '*' := by simpa using hcs
        rfl

namespace Chained

variable {k j : Level} {r r' : Rule} {o : Operator} {os : List Operator}

theorem body_eq (h : Chained k j r' r o os) : r'.body = .chain o os r := by
  cases h <;> rfl

theorem mem_iff (h : Chained k j r' r o os) (o' : Operator) : o' ∈ o :: os ↔ o'.level = k := by
  cases h <;> cases o' <;> decide

theorem levels (h : Chained k j r' r o os) {o' : Operator} (ho' : o'.level = k) :
    o'.leftLevel = k ∧ o'.rightLevel = j := by
  revert ho'
  cases h <;> cases o' <;> decide

theorem rank_eq (h : Chained k j r' r o os) : j.rank = k.rank + 1 := by
  cases h <;> rfl

theorem record_eq (h : Chained k j r' r o os) (cs : List Char) :
    (j.record cs).trackAll cs ((o :: os).map .operator) = k.record cs := by
  rw [Level.record, Tried.trackAll_at]
  cases h <;> rfl

theorem for_operand (h : Chained k j r' r o os) : r.For j := by
  cases h
  · exact .product
  · exact .signed

theorem not_power (h : Chained k j r' r o os) {o' : Operator} (ho' : o'.level = k) :
    o' ≠ .power := by
  rintro rfl
  subst ho'
  cases h

theorem build_eq (h : Chained k j r' r o os) (w : List Char) (inner : List (Node Rule)) :
    (Node.node r' w inner).build k = buildChain k j inner := by
  cases h <;> rfl

/-- Where an operand has led astray, no operator leads any further. -/
theorem no_more (h : Chained k j r' r o os) {here cs : List Char} (x : Expectation)
    (hblocked : Blocked j here cs) :
    Matches Rule.body text (.star (.cat .gap (.seq (.oneOf o os) (.rule r)))) cs (x.record here)
      (.found [] cs (x.record here)) := by
  refine .star_done hblocked.skipped ?_
  have hlt : (x.record here).place.length < cs.length := hblocked.length_lt
  have hnone : (∀ o' ∈ o :: os, ∀ s, next? cs ≠ some (.operator o', s)) →
      (.multiply ∈ o :: os → ∀ s, next? cs ≠ some (.operator .power, s)) →
      Matches Rule.body text (.seq (.oneOf o os) (.rule r)) cs (x.record here)
        (.missing (x.record here)) := by
    intro hmem hstar
    have hnot : Matches Rule.body text (.oneOf o os) cs (x.record here) _ :=
      not_matches_oneOf hmem hstar
    rw [Tried.trackAll_ahead hlt] at hnot
    exact .notFirst hnot
  cases hblocked with
  | openParen hskip hnext hle => exact hnone (by simp [hnext]) (by simp [hnext])
  | @operator o' s hskip hnext hrank hle =>
      have hmem : ∀ o'' ∈ o :: os, ∀ s', next? cs ≠ some (.operator o'', s') := by
        intro o'' ho'' s' hnext'
        obtain ⟨h', -⟩ := Prod.mk.inj (Option.some.inj (hnext.symm.trans hnext'))
        obtain rfl := Token.operator.inj h'
        have := h.rank_eq
        have := (h.mem_iff o').mp ho''
        subst this
        omega
      by_cases hpower : .multiply ∈ o :: os ∧ o' = .power
      · obtain ⟨hstar, rfl⟩ := hpower
        cases h with
        | sum => exact absurd hstar (by decide)
        | product =>
            -- the first star is taken for a product, and the second is no operand
            have hcs : Operator.multiply.symbol.toList ++ '*' :: s = cs :=
              text_append_of_next? hnext
            refine .not_seq (.first (matches_operator hcs)) (not_matches_signed_ahead ?_ ?_)
            · intro u s' hnext'
              obtain rfl : (Token.first '*' s).1 = u := congrArg Prod.fst (Option.some.inj hnext')
              exact startsOperand_first_star s
            · exact Nat.lt_succ_of_le hle
      · refine hnone hmem fun hstar s' hnext' => hpower ⟨hstar, ?_⟩
        obtain ⟨h', -⟩ := Prod.mk.inj (Option.some.inj (hnext.symm.trans hnext'))
        exact Token.operator.inj h'

theorem exists_more (h : Chained k j r' r o os) {n : Nat} (ih : PhrasesBelow text n)
    {stack : List Frame} (hstack : Admits k stack) :
    ∀ {cs : List Char} {q : State} {l : Expr}, cs.length ≤ n → Skipped cs → q.Holds k stack l →
      Ended j q cs →
      ∃ nodes rest t, Matches Rule.body text
          (.star (.cat .gap (.seq (.oneOf o os) (.rule r)))) cs (j.record cs)
          (.found nodes rest t) ∧
        MoreFate k (buildRest k j l) stack q cs (.found nodes rest t) := by
  intro cs
  induction hlength : cs.length using Nat.strongRecOn generalizing cs with
  | ind m ihm =>
  intro q l hle hcs hheld hended
  subst hlength
  by_cases hsome : ∃ o' s, next? cs = some (.operator o', s) ∧ o'.level = k
  · obtain ⟨o', s, hnext, ho'⟩ := hsome
    obtain ⟨hleft, hright⟩ := h.levels ho'
    have hlt := length_dropWhile_lt hnext
    obtain ⟨t', hoperator, ht'⟩ := matches_oneOf text (t := j.record cs) hnext
      ((h.mem_iff o').mpr ho') (h.not_power ho') (Nat.le_refl _)
    have hstep : q.step (.operator o') = some (.due (.binary o' l :: stack)) :=
      State.Holds.step_operator (hleft ▸ hheld) (hstack o' (Nat.le_of_eq (congrArg _ ho'.symm)))
    have hreach := Reaches.step hnext hstep (.here _ _)
    obtain ⟨out, hmatch, hfate⟩ := ih h.for_operand (t := t') (Nat.lt_of_lt_of_le hlt hle)
      (hright ▸ admits_right o' l stack)
      ⟨skipped_dropWhile s, Or.inl (Nat.lt_of_lt_of_le hlt ht'), fun _ _ => rfl⟩
    cases hfate with
    | @whole m us q' e rest hphrase hheld' hended' hbuild =>
        have hrest := hphrase.length_le
        have hwhole : q'.Holds k stack (.binary o' l e) := by
          have hbinary := State.Holds.binary (o := o') (l := l) (r := e) (hright.symm ▸ hheld')
          rwa [ho'] at hbinary
        obtain ⟨nodes, rest', t, hstar, hmore⟩ := ihm rest.length (by omega) rfl (by omega)
          (hphrase.skipped (skipped_dropWhile s)) hwhole hended'
        refine ⟨_, _, _, .star_more hcs (.seq hoperator hmatch) hstar, ?_⟩
        cases hmore with
        | whole hreach' hheld'' hended'' hnodes =>
            refine .whole ((hreach.append hphrase).append hreach') hheld'' hended'' ?_
            rw [List.append_assoc]
            exact (buildRest_cons ho' hbuild hnodes).trans (told_cons rfl).symm
        | broken hstops hblocked =>
            exact .broken ((hreach.append hphrase).stops hstops) hblocked
    | broken hstops hblocked =>
        have hrank := h.rank_eq
        exact ⟨_, _, _, .star_more hcs (.seq hoperator hmatch) (h.no_more _ hblocked),
          .broken (hreach.stops hstops) (hblocked.loosen (by omega))⟩
    | missing hstops =>
        exact ⟨_, _, _, .star_done hcs (.not_seq hoperator hmatch),
          .broken (hreach.stops hstops) (.operator hcs hnext (Nat.le_of_eq (congrArg _ ho'.symm))
            (Nat.le_trans hstops.length_le (length_dropWhile_le s)))⟩
  · have hnone : ∀ o' s, next? cs = some (.operator o', s) → o'.level ≠ k :=
      fun o' s hnext ho' => hsome ⟨o', s, hnext, ho'⟩
    have hrank := h.rank_eq
    have hoperators : Matches Rule.body text (.oneOf o os) cs (j.record cs)
        (.missing ((j.record cs).trackAll cs ((o :: os).map .operator))) := by
      refine not_matches_oneOf (fun o' ho' s hnext => hnone o' s hnext ((h.mem_iff o').mp ho'))
        fun hstar s hnext => ?_
      have hpower := hended.operator _ s hnext
      cases h <;> exact absurd hpower (by decide)
    rw [h.record_eq] at hoperators
    refine ⟨_, _, _, .star_done hcs (.notFirst hoperators), .whole (.here q cs) hheld
      ⟨fun o' s hnext => ?_, hended.openParen⟩ rfl⟩
    have hlt := hended.operator o' s hnext
    have hne : o'.level.rank ≠ k.rank := fun heq => hnone o' s hnext (Level.rank_injective heq)
    omega

/-- A phrase starts with a phrase of the next level, and the fate of that is its own at first. -/
theorem exists_fate (h : Chained k j r' r o os) {stack : List Frame} {cs : List Char}
    {t : Tried Rule} (ih : PhrasesBelow text cs.length) (hready : Ready stack cs t)
    (hstack : Admits k stack)
    (hfirst : ∃ o, Matches Rule.body text (.rule r) cs t o ∧ Fate j stack cs o) :
    ∃ o, Matches Rule.body text (.rule r') cs t o ∧ Fate k stack cs o := by
  have hrank := h.rank_eq
  obtain ⟨out, hmatch, hfate⟩ := hfirst
  cases hfate with
  | @whole m ts q l rest hphrase hheld hended hbuild =>
      have hskip := hphrase.skipped hready.skipped
      obtain ⟨nodes, rest', t', hstar, hmore⟩ :=
        h.exists_more ih hstack hphrase.length_le hskip (hheld.loosen (by omega)) hended
      have hbody := Matches.seq_many hskip hmatch hstar
      rw [← Pattern.chain, ← h.body_eq] at hbody
      refine ⟨_, .rule hbody, hmore.fate hphrase fun us e hnodes => ?_⟩
      rw [h.build_eq]
      exact buildChain_cons hbuild hnodes
  | broken hstops hblocked =>
      have hbody := Matches.seq_many hblocked.skipped hmatch (h.no_more _ hblocked)
      rw [← Pattern.chain, ← h.body_eq] at hbody
      exact ⟨_, .rule hbody, .broken hstops (hblocked.loosen (by omega))⟩
  | @missing here x hstops =>
      have hbody : Matches Rule.body text r'.body cs t (.missing (x.record here)) := by
        rw [h.body_eq]
        exact .notFirst hmatch
      exact ⟨_, hstops.notRule hready.fresh hbody, .missing hstops⟩

end Chained

/-! ## All levels -/

/-- Every rule for phrases has a fate. -/
theorem phrasesBelow (text : List Char) (n : Nat) : PhrasesBelow text n := by
  induction n with
  | zero => exact fun _ _ _ _ hlt => absurd hlt (Nat.not_lt_zero _)
  | succ n ih =>
      intro r k hr stack cs t hlt hstack hready
      have ih : PhrasesBelow text cs.length :=
        fun hr' _ _ _ hlt' => ih hr' (Nat.lt_of_lt_of_le hlt' (Nat.le_of_lt_succ hlt))
      cases hr with
      | signed => exact exists_signedFate ih hready hstack
      | product =>
          exact Chained.product.exists_fate ih hready hstack
            (exists_signedFate ih hready (hstack.tighten (by decide)))
      | sum =>
          have hproduct : Admits .product stack := hstack.tighten (by decide)
          exact Chained.sum.exists_fate ih hready hstack
            (Chained.product.exists_fate ih hready hproduct
              (exists_signedFate ih hready (hproduct.tighten (by decide))))

end Reckoner
