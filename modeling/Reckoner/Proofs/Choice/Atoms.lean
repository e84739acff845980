/-
# `Reckoner.Proofs.Choice.Atoms` — numbers, names, calls and groups

An atom starts with a number, a name or a parenthesis.  Between parentheses stands a
text that is shorter, and of shorter texts the fate is known (`PhrasesBelow`).  A call
is tried before a name: where it leads astray the name alone is matched, and the
parenthesis behind it goes unread.
-/
import Reckoner.Proofs.Choice.Fate

namespace Reckoner

section Parentheses

variable {text : List Char} {n : Nat}

/-- Behind an operand in parentheses the automaton stops before everything that does not close
them and separates no arguments. -/
theorem State.Holds.stops_inside {q : State} {f : Frame} {outer : List Frame} {e : Expr}
    {rest : List Char} (h : q.Holds .sum (f :: outer) e) (hf : f.isOpen = true)
    (hended : Ended .sum q rest) (hclose : ∀ r, next? rest ≠ some (.closeParen, r))
    (hcomma : ∀ g es r, f = .call g es → next? rest ≠ some (.comma, r)) :
    Stops q rest rest .operator := by
  have hstuck : q.Stuck rest := h.stuck hended (.isOpen outer hf)
    (fun _ => List.cons_ne_nil f outer) (fun r hr => absurd hr (hclose r))
    fun g es _ r heq => hcomma g es r (List.cons.inj heq).1
  have hexpected : q.expected = .operator := by rw [h.expected, List.any_cons, hf]; rfl
  have hstops := hstuck.stops
  rwa [hexpected] at hstops

/-! ### Arguments -/

/-- What becomes of the repetition behind an argument `e` of a call. -/
inductive MoreArguments (f : String) (es : List Expr) (outer : List Frame) (q : State) (e : Expr)
    (cs : List Char) : Outcome Rule → Prop where
  | whole {nodes : List (Node Rule)} {ts : List Token} {q' : State} {e' : Expr}
      {es' more : List Expr} {rest : List Char} :
      Reaches q cs ts q' rest → q'.Holds .sum (.call f es' :: outer) e' → Ended .sum q' rest →
      (∀ r, next? rest ≠ some (.comma, r)) → (e' :: es').reverse = (e :: es).reverse ++ more →
      buildArguments nodes = told ts more →
      MoreArguments f es outer q e cs (.found nodes rest (Level.sum.record rest))
  | broken {nodes : List (Node Rule)} {rest here : List Char} {x : Expectation} :
      Stops q cs here x → Skipped rest → (∀ r, next? rest ≠ some (.closeParen, r)) →
      MoreArguments f es outer q e cs (.found nodes rest (x.record here))

theorem exists_moreArguments (ih : PhrasesBelow text n) {f : String} {outer : List Frame} :
    ∀ {cs : List Char} {q : State} {e : Expr} {es : List Expr}, cs.length ≤ n → Skipped cs →
      q.Holds .sum (.call f es :: outer) e → Ended .sum q cs →
      ∃ nodes rest t, Matches Rule.body text
          (.star (.cat .gap (.seq (.chars [',']) (.rule .sum)))) cs (Level.sum.record cs)
          (.found nodes rest t) ∧ MoreArguments f es outer q e cs (.found nodes rest t) := by
  intro cs
  induction hlength : cs.length using Nat.strongRecOn generalizing cs with
  | ind m ihm =>
  intro q e es hle hcs hheld hended
  subst hlength
  by_cases hcomma : ∃ r, next? cs = some (.comma, r)
  · obtain ⟨r, hnext⟩ := hcomma
    have hlt := length_dropWhile_lt hnext
    have hmark : Matches Rule.body text (.chars [',']) cs (Level.sum.record cs) (.found [] r _) :=
      matches_mark .comma hnext
    have hreach := Reaches.step hnext hheld.step_comma (.here _ _)
    obtain ⟨o, hmatch, hfate⟩ := ih .sum (t := Level.sum.record cs) (Nat.lt_of_lt_of_le hlt hle)
      (admits_of_isOpen (f := .call f (e :: es)) rfl .sum outer)
      ⟨skipped_dropWhile r, Or.inl hlt, fun _ _ => rfl⟩
    cases hfate with
    | @whole n ts q' e' rest hphrase hheld' hended' hbuild =>
        have hrest := hphrase.length_le
        obtain ⟨nodes, rest', t, hstar, hmore⟩ := ihm rest.length (by omega) rfl (by omega)
          (hphrase.skipped (skipped_dropWhile r)) hheld' hended'
        refine ⟨_, _, _, .star_more hcs (.seq hmark hmatch) hstar, ?_⟩
        cases hmore with
        | @whole _ us q'' e'' es'' more _ hreach' hheld'' hended'' hcomma hes hnodes =>
            have hes : (e'' :: es'').reverse = (e :: es).reverse ++ (e' :: more) := by
              rw [hes]
              simp
            refine .whole ((hreach.append hphrase).append hreach') hheld'' hended'' hcomma hes ?_
            rw [List.append_assoc]
            exact (buildArguments_cons hbuild hnodes).trans (told_cons rfl).symm
        | broken hstops hskip hclose =>
            exact .broken ((hreach.append hphrase).stops hstops) hskip hclose
    | @broken nodes rest here x hstops hblocked =>
        have hnot : Matches Rule.body text (.seq (.chars [',']) (.rule .sum)) rest
            (x.record here) (.missing _) := .notFirst (not_matches_mark .comma hblocked.not_comma)
        exact ⟨_, _, _, .star_more hcs (.seq hmark hmatch) (.star_done hblocked.skipped hnot),
          .broken (hreach.stops hstops) hblocked.skipped hblocked.not_close⟩
    | missing hstops =>
        exact ⟨_, _, _, .star_done hcs (.not_seq hmark hmatch),
          .broken (hreach.stops hstops) hcs (by simp [hnext])⟩
  · have hnot : ∀ r, next? cs ≠ some (.comma, r) := fun r hr => hcomma ⟨r, hr⟩
    exact ⟨_, _, _, .star_done hcs (.notFirst (not_matches_mark .comma hnot)),
      .whole (.here q cs) hheld hended hnot (List.append_nil _).symm rfl⟩

/-- What becomes of the arguments of a call. -/
inductive ArgumentsFate (f : String) (outer : List Frame) (cs : List Char) :
    Outcome Rule → Prop where
  | whole {w : List Char} {inner : List (Node Rule)} {ts : List Token} {q : State} {e : Expr}
      {es : List Expr} {rest : List Char} :
      Reaches (.due (.call f [] :: outer)) cs ts q rest → q.Holds .sum (.call f es :: outer) e →
      Ended .sum q rest → (∀ r, next? rest ≠ some (.comma, r)) →
      buildArguments inner = told ts (e :: es).reverse →
      ArgumentsFate f outer cs (.found [.node .arguments w inner] rest (Level.sum.record rest))
  | broken {nodes : List (Node Rule)} {rest here : List Char} {x : Expectation} :
      Stops (.due (.call f [] :: outer)) cs here x → Skipped rest →
      (∀ r, next? rest ≠ some (.closeParen, r)) →
      ArgumentsFate f outer cs (.found nodes rest (x.record here))
  | missing {here : List Char} {x : Expectation} :
      Stops (.due (.call f [] :: outer)) cs here x →
      ArgumentsFate f outer cs (.missing (x.record here))

theorem exists_argumentsFate (ih : PhrasesBelow text n) {f : String} {outer : List Frame}
    {cs : List Char} {t : Tried Rule} (hlt : cs.length < n)
    (hready : Ready (.call f [] :: outer) cs t) :
    ∃ o, Matches Rule.body text (.rule .arguments) cs t o ∧ ArgumentsFate f outer cs o := by
  obtain ⟨o, hmatch, hfate⟩ :=
    ih .sum hlt (admits_of_isOpen (f := .call f []) rfl .sum outer) hready
  cases hfate with
  | @whole n ts q e rest hphrase hheld hended hbuild =>
      have hskip := hphrase.skipped hready.skipped
      have hrest := hphrase.length_le
      obtain ⟨nodes, rest', t', hstar, hmore⟩ :=
        exists_moreArguments ih (by omega) hskip hheld hended
      refine ⟨_, .rule (.seq_many hskip hmatch hstar), ?_⟩
      cases hmore with
      | whole hreach hheld' hended' hcomma hes hnodes =>
          refine .whole (hphrase.append hreach) hheld' hended' hcomma ?_
          rw [hes]
          exact buildArguments_cons hbuild hnodes
      | broken hstops hskip' hclose => exact .broken (hphrase.stops hstops) hskip' hclose
  | @broken nodes rest here x hstops hblocked =>
      have hnot : Matches Rule.body text (.seq (.chars [',']) (.rule .sum)) rest
          (x.record here) (.missing _) := .notFirst (not_matches_mark .comma hblocked.not_comma)
      exact ⟨_, .rule (.seq_many hblocked.skipped hmatch (.star_done hblocked.skipped hnot)),
        .broken hstops hblocked.skipped hblocked.not_close⟩
  | missing hstops =>
      exact ⟨_, hstops.notRule hready.fresh (.notFirst hmatch), .missing hstops⟩

/-! ### Calls -/

/-- What becomes of the rule for calls where a name stands before a parenthesis, and `after` comes
behind the parenthesis. -/
inductive CallFate (f : String) (stack : List Frame) (cs after : List Char) :
    Outcome Rule → Prop where
  | whole {n : Node Rule} {ts : List Token} {es : List Expr} {rest : List Char} {t : Tried Rule} :
      Reaches (.due stack) cs ts (.done stack (.call f es)) (rest.dropWhile isSeparator) →
      (rest.dropWhile isSeparator).length < t.place.length →
      n.build .atom = told ts (.call f es) → CallFate f stack cs after (.found [n] rest t)
  | missing {here : List Char} {x : Expectation} :
      Stops (.due stack) cs here x → here.length ≤ after.length →
      CallFate f stack cs after (.missing (x.record here))

/-- Where a call is closed at once, an argument was tried in vain. -/
theorem not_matches_arguments {cs rest : List Char} {t : Tried Rule}
    (hclose : next? cs = some (.closeParen, rest)) (ht : t.Fresh cs) :
    Matches Rule.body text (.rule .arguments) cs t (.missing (Expectation.operand.record cs)) := by
  have hstuck : (State.due []).Stuck cs := by
    rw [State.Stuck, hclose]
    rfl
  have hstops : Stops (.due []) cs cs .operand := hstuck.stops
  have hsigned : Matches Rule.body text (.rule .signed) cs t _ :=
    not_matches_signed (by simp [hclose, Token.startsOperand, Token.startsAtom]) ht
  have hproduct : Matches Rule.body text (.rule .product) cs t _ :=
    hstops.notRule ht (.notFirst hsigned)
  have hsum : Matches Rule.body text (.rule .sum) cs t _ := hstops.notRule ht (.notFirst hproduct)
  exact hstops.notRule ht (.notFirst hsum)

section Call

variable {f : String} {cs r after : List Char} {t : Tried Rule}
  (hname : next? cs = some (.name f, r))
  (hparen : next? (r.dropWhile isSeparator) = some (.openParen, after))

include hname hparen

theorem matches_call {nodes : List (Node Rule)} {mid rest : List Char} {t' : Tried Rule}
    (hargs : Matches Rule.body text (.opt (.rule .arguments)) (after.dropWhile isSeparator) t
      (.found nodes mid t'))
    (hmid : Skipped mid) (hclose : next? mid = some (.closeParen, rest)) :
    ∃ w, Matches Rule.body text (.rule .call) cs t
      (.found [.node .call w (.node .name f.toList [] :: nodes)] rest t') := by
  have hbody := Matches.seq (matches_name hname) (.seq (matches_mark .openParen hparen)
    (.seq_of_skipped hmid hargs (matches_mark .closeParen hclose)))
  simp only [List.append_nil, List.nil_append, List.cons_append] at hbody
  exact ⟨_, .rule hbody⟩

theorem not_matches_call_of_not_close {nodes : List (Node Rule)} {mid : List Char}
    {t' : Tried Rule}
    (hargs : Matches Rule.body text (.opt (.rule .arguments)) (after.dropWhile isSeparator) t
      (.found nodes mid t'))
    (hmid : Skipped mid) (hclose : ∀ s, next? mid ≠ some (.closeParen, s))
    (ht' : t'.place.length < cs.length) :
    Matches Rule.body text (.rule .call) cs t (.missing t') :=
  .notRule_ahead (.not_seq (matches_name hname) (.not_seq (matches_mark .openParen hparen)
    (.not_seq_of_skipped hmid hargs (not_matches_mark .closeParen hclose)))) ht'

theorem exists_callFate (ih : PhrasesBelow text cs.length) (ht : cs.length ≤ t.place.length)
    (stack : List Frame) :
    ∃ o, Matches Rule.body text (.rule .call) cs t o ∧ CallFate f stack cs after o := by
  have hlt := Nat.lt_trans (length_dropWhile_lt hparen) (length_dropWhile_lt hname)
  have hskip := skipped_dropWhile after
  have hreach : Reaches (.due stack) cs [.name f, .openParen] (.due (.call f [] :: stack))
      (after.dropWhile isSeparator) := .step hname rfl (.step hparen rfl (.here _ _))
  have hfresh : t.Fresh (after.dropWhile isSeparator) := Or.inl (Nat.lt_of_lt_of_le hlt ht)
  by_cases hclose : ∃ s, next? (after.dropWhile isSeparator) = some (.closeParen, s)
  · obtain ⟨s, hclose⟩ := hclose
    have hargs : Matches Rule.body text (.opt (.rule .arguments)) _ t _ :=
      .notOpt (not_matches_arguments hclose hfresh)
    obtain ⟨w, hmatch⟩ := matches_call hname hparen hargs hskip hclose
    refine ⟨_, hmatch, .whole (hreach.snoc hclose rfl) ?_ ?_⟩
    · exact length_dropWhile_lt hclose
    · rw [Node.build, buildCall, String.ofList_toList]
      rfl
  · have hclose : ∀ s, next? (after.dropWhile isSeparator) ≠ some (.closeParen, s) :=
      fun s hs => hclose ⟨s, hs⟩
    obtain ⟨o, hargs, hfate⟩ :=
      exists_argumentsFate ih hlt ⟨hskip, hfresh, fun s hs => absurd hs (hclose s)⟩
    cases hfate with
    | @whole w inner ts q e es rest hphrase hheld hended hcomma hbuild =>
        have hskip' := hphrase.skipped hskip
        by_cases hend : ∃ s, next? rest = some (.closeParen, s)
        · obtain ⟨s, hend⟩ := hend
          obtain ⟨w, hmatch⟩ := matches_call hname hparen (.opt hargs) hskip' hend
          refine ⟨_, hmatch, .whole ((hreach.append hphrase).snoc hend hheld.step_close_call) ?_ ?_⟩
          · exact length_dropWhile_lt hend
          · rw [build_call hbuild]
            exact ((told_cons rfl).trans ((told_cons rfl).trans told_closed)).symm
        · have hend : ∀ s, next? rest ≠ some (.closeParen, s) := fun s hs => hend ⟨s, hs⟩
          have hlt' : rest.length < cs.length := Nat.lt_of_le_of_lt hphrase.length_le hlt
          have hstops := hheld.stops_inside rfl hended hend fun g es r _ => hcomma r
          exact ⟨_, not_matches_call_of_not_close hname hparen (.opt hargs) hskip' hend hlt',
            .missing ((hreach.append hphrase).stops hstops)
              (Nat.le_trans hphrase.length_le (length_dropWhile_le after))⟩
    | broken hstops hskip' hend =>
        have hle := hstops.length_le
        exact ⟨_, not_matches_call_of_not_close hname hparen (.opt hargs) hskip' hend
            (Nat.lt_of_le_of_lt hle hlt),
          .missing (hreach.stops hstops) (Nat.le_trans hle (length_dropWhile_le after))⟩
    | missing hstops =>
        have hle := hstops.length_le
        exact ⟨_, not_matches_call_of_not_close hname hparen (.notOpt hargs) hskip hclose
            (Nat.lt_of_le_of_lt hle hlt),
          .missing (hreach.stops hstops) (Nat.le_trans hle (length_dropWhile_le after))⟩

end Call

/-! ### Atoms -/

/-- What becomes of an atom.  Separators behind it are still to be passed over. -/
inductive AtomFate (stack : List Frame) (cs : List Char) : Outcome Rule → Prop where
  | whole {n : Node Rule} {ts : List Token} {q : State} {e : Expr} {rest : List Char}
      {t : Tried Rule} :
      Reaches (.due stack) cs ts q (rest.dropWhile isSeparator) →
      (rest.dropWhile isSeparator).length < t.place.length → q.Holds .atom stack e →
      (∀ r, next? (rest.dropWhile isSeparator) = some (.openParen, r) →
        q.step .openParen = none) →
      n.build .atom = told ts e → AtomFate stack cs (.found [n] rest t)
  | broken {nodes : List (Node Rule)} {rest here r : List Char} {x : Expectation} :
      Stops (.due stack) cs here x → next? (rest.dropWhile isSeparator) = some (.openParen, r) →
      here.length ≤ r.length → AtomFate stack cs (.found nodes rest (x.record here))
  | missing {here : List Char} {x : Expectation} :
      Stops (.due stack) cs here x → here.length < cs.length →
      AtomFate stack cs (.missing (x.record here))

theorem exists_groupFate {stack : List Frame} {cs r : List Char} {t : Tried Rule}
    (ih : PhrasesBelow text cs.length) (hparen : next? cs = some (.openParen, r))
    (ht : cs.length ≤ t.place.length) :
    ∃ o, Matches Rule.body text (.rule .group) cs t o ∧ AtomFate stack cs o := by
  have hlt := length_dropWhile_lt hparen
  have hmark : Matches Rule.body text (.chars ['(']) cs t (.found [] r t) :=
    matches_mark .openParen hparen
  have hreach : Reaches (.due stack) cs [.openParen] (.due (.group :: stack)) _ :=
    .step hparen rfl (.here _ _)
  obtain ⟨o, hmatch, hfate⟩ := ih .sum hlt (admits_of_isOpen (f := .group) rfl .sum stack)
    ⟨skipped_dropWhile r, Or.inl (Nat.lt_of_lt_of_le hlt ht), fun _ _ => rfl⟩
  cases hfate with
  | @whole n ts q e rest hphrase hheld hended hbuild =>
      have hskip := hphrase.skipped (skipped_dropWhile r)
      by_cases hclose : ∃ s, next? rest = some (.closeParen, s)
      · obtain ⟨s, hclose⟩ := hclose
        have hend : Matches Rule.body text (.chars [')']) rest (Level.sum.record rest) _ :=
          matches_mark .closeParen hclose
        refine ⟨_, .rule (.seq hmark (.seq_of_skipped hskip hmatch hend)),
          .whole ((hreach.append hphrase).snoc hclose hheld.step_close_group) ?_
            (State.holds_done .atom stack e) (fun _ _ => rfl) ?_⟩
        · exact length_dropWhile_lt hclose
        · exact hbuild.trans ((told_cons rfl).trans told_closed).symm
      · have hclose : ∀ s, next? rest ≠ some (.closeParen, s) := fun s hs => hclose ⟨s, hs⟩
        have hend : Matches Rule.body text (.chars [')']) rest (Level.sum.record rest) _ :=
          not_matches_mark .closeParen hclose
        have hstops := hheld.stops_inside rfl hended hclose nofun
        have hlt' : rest.length < cs.length := Nat.lt_of_le_of_lt hphrase.length_le hlt
        exact ⟨_, .notRule_ahead (.not_seq hmark (.not_seq_of_skipped hskip hmatch hend)) hlt',
          .missing ((hreach.append hphrase).stops hstops) hlt'⟩
  | @broken nodes rest here x hstops hblocked =>
      have hend : Matches Rule.body text (.chars [')']) rest (x.record here) _ :=
        not_matches_mark .closeParen hblocked.not_close
      have hlt' : here.length < cs.length := Nat.lt_of_le_of_lt hstops.length_le hlt
      exact ⟨_,
        .notRule_ahead (.not_seq hmark (.not_seq_of_skipped hblocked.skipped hmatch hend)) hlt',
        .missing (hreach.stops hstops) hlt'⟩
  | @missing here x hstops =>
      have hlt' : here.length < cs.length := Nat.lt_of_le_of_lt hstops.length_le hlt
      exact ⟨_, .notRule_ahead (.not_seq hmark (.notFirst hmatch)) hlt',
        .missing (hreach.stops hstops) hlt'⟩

theorem exists_atomFate {cs r : List Char} {u : Token} {t : Tried Rule}
    (ih : PhrasesBelow text cs.length) (stack : List Frame) (hnext : next? cs = some (u, r))
    (hu : u.startsAtom = true) (ht : cs.length ≤ t.place.length) :
    ∃ o, Matches Rule.body text .atom cs t o ∧ AtomFate stack cs o := by
  have hshort := length_dropWhile_lt hnext
  cases u with
  | number l =>
      have hcall : Matches Rule.body text (.rule .call) cs t _ :=
        not_matches_call (by simp [hnext])
      have hplace := Tried.length_le_track (Tried.length_le_trackAll ht [.name]) t .call
      exact ⟨_, .second hcall (.first (matches_number hnext)),
        .whole (.step hnext rfl (.here _ _)) (Nat.lt_of_lt_of_le hshort hplace)
          (State.holds_done .atom stack _) (fun _ _ => rfl)
          (buildNumber_text (wellFormed_of_next? hnext))⟩
  | name f =>
      by_cases hparen : ∃ after, next? (r.dropWhile isSeparator) = some (.openParen, after)
      · obtain ⟨after, hparen⟩ := hparen
        obtain ⟨o, hmatch, hfate⟩ := exists_callFate hnext hparen ih ht stack
        cases hfate with
        | whole hreach hplace hbuild =>
            exact ⟨_, .first hmatch, .whole hreach hplace (State.holds_done .atom stack _)
              (fun _ _ => rfl) hbuild⟩
        | @missing here x hstops hle =>
            have hlt : here.length < cs.length := by
              have := length_lt_of_next? hparen
              omega
            have hnumber : Matches Rule.body text (.rule .number) cs (x.record here) _ :=
              not_matches_number (by simp [hnext])
            rw [Tried.track_ahead hlt] at hnumber
            exact ⟨_, .second hmatch (.second hnumber (.first (matches_name hnext))),
              .broken hstops hparen hle⟩
      · have hparen : ∀ after, next? (r.dropWhile isSeparator) ≠ some (.openParen, after) :=
          fun after h => hparen ⟨after, h⟩
        have hcall : Matches Rule.body text (.rule .call) cs t _ :=
          .notRule (.not_seq (matches_name hnext) (.notFirst (not_matches_mark .openParen hparen)))
        have hplace := Tried.length_le_trackAll ht [.call, .number]
        simp only [Tried.trackAll_cons, Tried.trackAll_nil] at hplace
        have hnumber : Matches Rule.body text (.rule .number) cs (t.track cs .call t) _ :=
          not_matches_number (by simp [hnext])
        exact ⟨_, .second hcall (.second hnumber (.first (matches_name hnext))),
          .whole (.step hnext rfl (.here _ _)) (Nat.lt_of_lt_of_le hshort hplace)
            (State.holds_named .atom stack f) (fun after h => absurd h (hparen after))
            (by rw [Node.build, String.ofList_toList]; rfl)⟩
  | openParen =>
      have hcall : Matches Rule.body text (.rule .call) cs t _ :=
        not_matches_call (by simp [hnext])
      have hnumber : ∀ t, Matches Rule.body text (.rule .number) cs t _ :=
        fun t => not_matches_number (by simp [hnext])
      have hname : ∀ t, Matches Rule.body text (.rule .name) cs t _ :=
        fun t => not_matches_name (by simp [hnext])
      have hplace := Tried.length_le_trackAll
        (Tried.length_le_track (Tried.length_le_trackAll ht [.name]) t .call) [.number, .name]
      simp only [Tried.trackAll_cons, Tried.trackAll_nil] at hcall hplace
      obtain ⟨o, hgroup, hfate⟩ := exists_groupFate ih hnext hplace
      exact ⟨o, .second hcall (.second (hnumber _) (.second (hname _) hgroup)), hfate⟩
  | operator o | closeParen | comma | stray c => exact absurd hu (by simp [Token.startsAtom])

end Parentheses

end Reckoner
