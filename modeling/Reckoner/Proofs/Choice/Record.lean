/-
# `Reckoner.Proofs.Choice.Record` — what is on record where a word is due

Two places matter.  Where an operand is due and none starts, all the rules that were
tried come down to one entry (`not_matches_signed`).  Behind an operand the operators
are tried level by level, from the tightest to the loosest, and each leaves an entry
(`Level.tried`).  Everything that fails at an earlier place leaves no trace.
-/
import Reckoner.Proofs.Choice.Reach

namespace Reckoner

/-! ## What is on record -/

/-- The operators that have been tried behind a phrase at level `k`, in order. -/
def Level.tried : Level → List Operator
  | .atom => []
  | .power | .signed => [.power]
  | .product => [.power, .multiply, .divide, .modulo]
  | .sum => [.power, .multiply, .divide, .modulo, .add, .subtract]

def Level.record (k : Level) (cs : List Char) : Tried Rule := ⟨cs, k.tried.map .operator⟩

def Expectation.rules : Expectation → List Rule
  | .operand => [.signed]
  | .operator => Level.sum.tried.map .operator
  | .finishOrOperator => Level.sum.tried.map .operator ++ [.finish]

/-- The record where the automaton stops. -/
def Expectation.record (x : Expectation) (here : List Char) : Tried Rule := ⟨here, x.rules⟩

theorem Expectation.report_record (x : Expectation) (s : String) (here : List Char) :
    (x.record here).report s = (ParseError.unexpected s (columnOf s.toList here) x).report := by
  cases x <;> rfl

/-- A rule that was begun where an operand is due, or earlier, leaves the record of the place where
the automaton stops. -/
theorem Expectation.track_record {x : Expectation} {cs here : List Char} {t : Tried Rule}
    (h : here.length < cs.length ∨ here = cs ∧ x = .operand) (ht : t.Fresh cs) (r : Rule) :
    t.track cs r (x.record here) = x.record here := by
  rcases h with hlt | ⟨rfl, rfl⟩
  · exact Tried.track_ahead hlt t r
  · have hcount : t.countAt here = ([] : List Rule).length := ht.countAt
    exact Tried.track_part hcount r .signed

theorem Stops.notRule {text : List Char} {stack : List Frame} {cs here : List Char}
    {x : Expectation} {t : Tried Rule} {r : Rule} (hstops : Stops (.due stack) cs here x)
    (ht : t.Fresh cs) (h : Matches Rule.body text r.body cs t (.missing (x.record here))) :
    Matches Rule.body text (.rule r) cs t (.missing (x.record here)) := by
  have hrule := Matches.notRule h
  rwa [Expectation.track_record hstops.of_due ht] at hrule

/-! ## Separators -/

section Separators

variable {text : List Char} {a b : Pattern Rule} {cs mid rest : List Char} {t t' t'' : Tried Rule}
  {nodes nodes' : List (Node Rule)} {o : Outcome Rule}

theorem Matches.seq (ha : Matches Rule.body text a cs t (.found nodes mid t'))
    (hb : Matches Rule.body text b (mid.dropWhile isSeparator) t' (.found nodes' rest t'')) :
    Matches Rule.body text (.seq a b) cs t (.found (nodes ++ nodes') rest t'') :=
  .cat ha (.cat .run hb)

theorem Matches.not_seq (ha : Matches Rule.body text a cs t (.found nodes mid t'))
    (hb : Matches Rule.body text b (mid.dropWhile isSeparator) t' (.missing t'')) :
    Matches Rule.body text (.seq a b) cs t (.missing t'') :=
  .notSecond ha (.notSecond .run hb)

theorem Matches.seq_of_skipped (hmid : Skipped mid)
    (ha : Matches Rule.body text a cs t (.found nodes mid t'))
    (hb : Matches Rule.body text b mid t' (.found nodes' rest t'')) :
    Matches Rule.body text (.seq a b) cs t (.found (nodes ++ nodes') rest t'') :=
  .seq ha (by rwa [hmid.dropWhile])

theorem Matches.not_seq_of_skipped (hmid : Skipped mid)
    (ha : Matches Rule.body text a cs t (.found nodes mid t'))
    (hb : Matches Rule.body text b mid t' (.missing t'')) :
    Matches Rule.body text (.seq a b) cs t (.missing t'') :=
  .not_seq ha (by rwa [hmid.dropWhile])

theorem Matches.star_more (hcs : Skipped cs)
    (ha : Matches Rule.body text a cs t (.found nodes mid t'))
    (hstar : Matches Rule.body text (.star (.cat .gap a)) mid t' (.found nodes' rest t'')) :
    Matches Rule.body text (.star (.cat .gap a)) cs t (.found (nodes ++ nodes') rest t'') := by
  have hgap : Matches Rule.body text .gap cs t (.found [] (cs.dropWhile isSeparator) t) := .run
  rw [hcs.dropWhile] at hgap
  exact .more (.cat hgap ha) hstar

theorem Matches.star_done (hcs : Skipped cs) (ha : Matches Rule.body text a cs t (.missing t')) :
    Matches Rule.body text (.star (.cat .gap a)) cs t (.found [] cs t') := by
  have hgap : Matches Rule.body text .gap cs t (.found [] (cs.dropWhile isSeparator) t) := .run
  rw [hcs.dropWhile] at hgap
  exact .noMore (.notSecond hgap ha)

theorem Matches.many (hcs : Skipped cs)
    (h : Matches Rule.body text (.star (.cat .gap a)) cs t (.found nodes rest t')) :
    Matches Rule.body text (.many a) cs t (.found nodes rest t') := by
  cases h with
  | more h hstar =>
      cases h with
      | cat hgap ha =>
          cases hgap with
          | run =>
              rw [hcs.dropWhile] at ha
              exact .opt (.cat ha hstar)
  | noMore h =>
      cases h with
      | notFirst hgap => exact nomatch hgap
      | notSecond hgap ha =>
          cases hgap with
          | run =>
              rw [hcs.dropWhile] at ha
              exact .notOpt (.notFirst ha)

theorem Matches.seq_many (hmid : Skipped mid)
    (ha : Matches Rule.body text a cs t (.found nodes mid t'))
    (hstar : Matches Rule.body text (.star (.cat .gap b)) mid t' (.found nodes' rest t'')) :
    Matches Rule.body text (.seq a (.many b)) cs t (.found (nodes ++ nodes') rest t'') :=
  .seq_of_skipped hmid ha (.many hmid hstar)

end Separators

/-! ## Where no operand is -/

def Token.startsAtom : Token → Bool
  | .number _ | .name _ | .openParen => true
  | .operator _ | .closeParen | .comma | .stray _ => false

def Token.startsOperand : Token → Bool
  | .operator o => o.sign?.isSome
  | t => t.startsAtom

/-- The record when several rules have failed, one after the other. -/
def Tried.trackAll (t : Tried Rule) (cs : List Char) (rs : List Rule) : Tried Rule :=
  rs.foldl (fun t r => t.track cs r t) t

@[simp] theorem Tried.trackAll_nil (t : Tried Rule) (cs : List Char) : t.trackAll cs [] = t := rfl

@[simp] theorem Tried.trackAll_cons (t : Tried Rule) (cs : List Char) (r : Rule) (rs : List Rule) :
    t.trackAll cs (r :: rs) = (t.track cs r t).trackAll cs rs := rfl

theorem Tried.trackAll_ahead {t : Tried Rule} {cs : List Char} (h : t.place.length < cs.length)
    (rs : List Rule) : t.trackAll cs rs = t := by
  induction rs with
  | nil => rfl
  | cons r rs ih => rw [trackAll, List.foldl_cons, track_ahead h]; exact ih

theorem Tried.trackAll_at (cs : List Char) (rs rs' : List Rule) :
    trackAll ⟨cs, rs⟩ cs rs' = ⟨cs, rs ++ rs'⟩ := by
  induction rs' generalizing rs with
  | nil => rw [List.append_nil]; rfl
  | cons r rs' ih =>
      rw [trackAll, List.foldl_cons, track_behind]
      exact (ih (rs ++ [r])).trans (by rw [List.append_assoc]; rfl)

theorem Tried.Fresh.trackAll {t : Tried Rule} {cs : List Char} (h : t.Fresh cs) (r : Rule)
    (rs : List Rule) : t.trackAll cs (r :: rs) = ⟨cs, r :: rs⟩ := by
  rw [Tried.trackAll, List.foldl_cons, h.track]
  exact trackAll_at cs [r] rs

theorem Tried.length_le_trackAll {t : Tried Rule} {cs : List Char}
    (h : cs.length ≤ t.place.length) (rs : List Rule) :
    cs.length ≤ (t.trackAll cs rs).place.length := by
  induction rs generalizing t with
  | nil => exact h
  | cons r rs ih => exact ih (length_le_track h t r)

section NoOperand

variable {text cs : List Char} {t : Tried Rule}

theorem not_matches_call (h : ∀ x r, next? cs ≠ some (.name x, r)) :
    Matches Rule.body text (.rule .call) cs t
      (.missing (t.track cs .call (t.trackAll cs [.name]))) :=
  .notRule (.notFirst (not_matches_name h))

theorem not_matches_group (h : ∀ r, next? cs ≠ some (.openParen, r)) :
    Matches Rule.body text (.rule .group) cs t (.missing (t.track cs .group t)) :=
  .notRule (.notFirst (not_matches_mark .openParen h))

theorem not_matches_oneOf {o : Operator} {os : List Operator}
    (h : ∀ o' ∈ o :: os, ∀ r, next? cs ≠ some (.operator o', r))
    (hstar : .multiply ∈ o :: os → ∀ r, next? cs ≠ some (.operator .power, r)) :
    Matches Rule.body text (.oneOf o os) cs t
      (.missing (t.trackAll cs ((o :: os).map .operator))) := by
  induction os generalizing o t with
  | nil =>
      exact not_matches_operator (h o List.mem_cons_self) fun ho => hstar (ho ▸ List.mem_cons_self)
  | cons o' os ih =>
      refine .second (not_matches_operator (h o List.mem_cons_self)
        fun ho => hstar (ho ▸ List.mem_cons_self)) (ih ?_ ?_)
      · exact fun o'' ho => h o'' (List.mem_cons_of_mem _ ho)
      · exact fun ho => hstar (List.mem_cons_of_mem _ ho)

theorem not_matches_atom (h : ∀ u r, next? cs = some (u, r) → u.startsAtom = false) :
    Matches Rule.body text .atom cs t
      (.missing ((t.track cs .call (t.trackAll cs [.name])).trackAll cs
        [.number, .name, .group])) := by
  have hnumber : ∀ l r, next? cs ≠ some (.number l, r) := fun l r hnext =>
    absurd (h _ r hnext) (by simp [Token.startsAtom])
  have hname : ∀ x r, next? cs ≠ some (.name x, r) := fun x r hnext =>
    absurd (h _ r hnext) (by simp [Token.startsAtom])
  have hparen : ∀ r, next? cs ≠ some (.openParen, r) := fun r hnext =>
    absurd (h _ r hnext) (by simp [Token.startsAtom])
  simp only [Tried.trackAll_cons, Tried.trackAll_nil]
  exact .second (not_matches_call hname) (.second (not_matches_number hnumber)
    (.second (not_matches_name hname) (not_matches_group hparen)))

theorem not_matches_power_ahead (h : ∀ u r, next? cs = some (u, r) → u.startsAtom = false)
    (ht : t.place.length < cs.length) :
    Matches Rule.body text (.rule .power) cs t (.missing t) := by
  have hatom : Matches Rule.body text .atom cs t _ := not_matches_atom h
  rw [Tried.trackAll_ahead ht, Tried.track_ahead ht, Tried.trackAll_ahead ht] at hatom
  exact .notRule_ahead (.notFirst hatom) ht

/-- Behind two other rules, a power that is not there is put on record in place of its parts. -/
theorem not_matches_power_at {rs : List Rule}
    (h : ∀ u r, next? cs = some (u, r) → u.startsAtom = false) :
    Matches Rule.body text (.rule .power) cs ⟨cs, rs⟩ (.missing ⟨cs, rs ++ [.power]⟩) := by
  have hpower : Matches Rule.body text (.rule .power) cs ⟨cs, rs⟩ _ :=
    .notRule (.notFirst (not_matches_atom h))
  rwa [Tried.trackAll_at, Tried.track_part (Tried.countAt_mk cs rs), Tried.trackAll_at,
    List.append_assoc, Tried.track_parts (Tried.countAt_mk cs rs) (by simp)] at hpower

theorem not_startsAtom_of_not_startsOperand {u : Token} (h : u.startsOperand = false) :
    u.startsAtom = false := by
  cases u with
  | operator o => rfl
  | number l | name x | openParen | closeParen | comma | stray c => exact h

theorem not_matches_signs (h : ∀ u r, next? cs = some (u, r) → u.startsOperand = false) :
    Matches Rule.body text (.seq (.oneOf .add [.subtract]) (.rule .signed)) cs t
      (.missing (t.trackAll cs [.operator .add, .operator .subtract])) := by
  refine .notFirst (not_matches_oneOf (fun o ho r hnext => ?_) fun ho => absurd ho (by decide))
  have hsign := h _ r hnext
  rcases List.mem_cons.mp ho with rfl | ho
  · exact absurd hsign (by decide)
  · obtain rfl := List.mem_singleton.mp ho
    exact absurd hsign (by decide)

theorem not_matches_signed_ahead (h : ∀ u r, next? cs = some (u, r) → u.startsOperand = false)
    (ht : t.place.length < cs.length) :
    Matches Rule.body text (.rule .signed) cs t (.missing t) := by
  have hsigns : Matches Rule.body text _ cs t _ := not_matches_signs h
  rw [Tried.trackAll_ahead ht] at hsigns
  have hpower : Matches Rule.body text (.rule .power) cs t (.missing t) :=
    not_matches_power_ahead (fun u r hnext => not_startsAtom_of_not_startsOperand (h u r hnext)) ht
  exact .notRule_ahead (.second hsigns hpower) ht

/-- At a fresh place all that an operand may be comes down to one entry. -/
theorem not_matches_signed (h : ∀ u r, next? cs = some (u, r) → u.startsOperand = false)
    (ht : t.Fresh cs) :
    Matches Rule.body text (.rule .signed) cs t (.missing (Expectation.operand.record cs)) := by
  have hsigns : Matches Rule.body text _ cs t _ := not_matches_signs h
  rw [ht.trackAll] at hsigns
  have hpower : Matches Rule.body text (.rule .power) cs
      ⟨cs, [.operator .add, .operator .subtract]⟩ _ :=
    not_matches_power_at fun u r hnext => not_startsAtom_of_not_startsOperand (h u r hnext)
  have hsigned : Matches Rule.body text (.rule .signed) cs t _ := .notRule (.second hsigns hpower)
  have hcount : t.countAt cs = ([] : List Rule).length := ht.countAt
  rwa [← List.nil_append (_ ++ [Rule.power]), Tried.track_parts hcount (by simp)] at hsigned

end NoOperand

/-! ## Operators -/

def operatorNode (o : Operator) : Node Rule := .node (.operator o) o.symbol.toList []

theorem matches_oneOf (text : List Char) {cs r : List Char} {o' o : Operator} {os : List Operator}
    {t : Tried Rule} (hnext : next? cs = some (.operator o', r)) (ho' : o' ∈ o :: os)
    (hpower : o' ≠ .power) (ht : cs.length ≤ t.place.length) :
    ∃ t', Matches Rule.body text (.oneOf o os) cs t (.found [operatorNode o'] r t') ∧
      cs.length ≤ t'.place.length := by
  have hfound : ∀ t, Matches Rule.body text (.rule (.operator o')) cs t
      (.found [operatorNode o'] r t) := fun t => matches_operator (text_append_of_next? hnext)
  induction os generalizing o t with
  | nil =>
      obtain rfl := List.mem_singleton.mp ho'
      exact ⟨t, hfound t, ht⟩
  | cons o₁ os ih =>
      by_cases ho : o' = o
      · subst ho
        exact ⟨t, .first (hfound t), ht⟩
      · have hnot : Matches Rule.body text (.rule (.operator o)) cs t _ :=
          not_matches_operator (fun r' hr' => ho (by simp_all)) fun _ r' hr' => hpower (by simp_all)
        obtain ⟨t', hmatch, ht'⟩ := ih (List.mem_of_ne_of_mem ho ho')
          (Tried.length_le_track ht t (.operator o))
        exact ⟨t', .second hnot hmatch, ht'⟩

end Reckoner
