/-
# `Reckoner.Proofs.Pattern` — ordered choice comes to one end

Matching is determined by the pattern, the place and the record
(`Matches.unique`): every alternative is settled by what comes of the first.

The other lemmas say what becomes of the record when a rule fails.  A place that
nothing was tried at yet is `Fresh`.  There the rule goes on record, in place of
its parts if these were several; a record from further on stays as it is.
-/
import Reckoner.Pattern

namespace Reckoner

variable {R : Type} {body : R → Pattern R} {text : List Char}

/-- Matching comes to one end at most. -/
theorem Matches.unique {p : Pattern R} {cs : List Char} {t : Tried R} {o o' : Outcome R}
    (h : Matches body text p cs t o) (h' : Matches body text p cs t o') : o = o' := by
  induction h generalizing o' with
  | start =>
      cases h' with
      | start => rfl
      | notStart hne => exact absurd rfl hne
  | notStart hne =>
      cases h' with
      | start => exact absurd rfl hne
      | notStart => rfl
  | stop =>
      cases h' with
      | stop => rfl
      | notStop hne => exact absurd rfl hne
  | notStop hne =>
      cases h' with
      | stop => exact absurd rfl hne
      | notStop => rfl
  | one hp =>
      cases h' with
      | one => rfl
      | notOne hnot => exact absurd (hnot _ rfl) (by simp [hp])
  | notOne hnot =>
      cases h' with
      | one hp => exact absurd (hnot _ rfl) (by simp [hp])
      | notOne => rfl
  | run => cases h' with | run => rfl
  | chars hw =>
      cases h' with
      | chars hw' => rw [List.append_cancel_left (hw.symm.trans hw')]
      | notChars hnot => exact absurd hw (hnot _)
  | notChars hnot =>
      cases h' with
      | chars hw => exact absurd hw (hnot _)
      | notChars => rfl
  | rule _ ih =>
      cases h' with
      | rule h' =>
          cases ih h'
          rfl
      | notRule h' => exact nomatch ih h'
  | notRule _ ih =>
      cases h' with
      | rule h' => exact nomatch ih h'
      | notRule h' =>
          cases ih h'
          rfl
  | cat _ _ ih ih' =>
      cases h' with
      | cat h h' =>
          cases ih h
          cases ih' h'
          rfl
      | notFirst h => exact nomatch ih h
      | notSecond h h' =>
          cases ih h
          exact nomatch ih' h'
  | notFirst _ ih =>
      cases h' with
      | cat h _ | notSecond h _ => exact nomatch ih h
      | notFirst h => exact ih h
  | notSecond _ _ ih ih' =>
      cases h' with
      | cat h h' =>
          cases ih h
          exact nomatch ih' h'
      | notFirst h => exact nomatch ih h
      | notSecond h h' =>
          cases ih h
          exact ih' h'
  | first _ ih =>
      cases h' with
      | first h => exact ih h
      | second h _ => exact nomatch ih h
  | second _ _ ih ih' =>
      cases h' with
      | first h => exact nomatch ih h
      | second h h' =>
          cases ih h
          exact ih' h'
  | opt _ ih =>
      cases h' with
      | opt h => exact ih h
      | notOpt h => exact nomatch ih h
  | notOpt _ ih =>
      cases h' with
      | opt h => exact nomatch ih h
      | notOpt h =>
          cases ih h
          rfl
  | more _ _ ih ih' =>
      cases h' with
      | more h h' =>
          cases ih h
          cases ih' h'
          rfl
      | noMore h => exact nomatch ih h
  | noMore _ ih =>
      cases h' with
      | more h _ => exact nomatch ih h
      | noMore h =>
          cases ih h
          rfl

theorem Matches.node {r : R} {w cs rest : List Char} {t t' : Tried R} {nodes : List (Node R)}
    (hw : w ++ rest = cs) (h : Matches body text (body r) cs t (.found nodes rest t')) :
    Matches body text (.rule r) cs t (.found [.node r w nodes] rest t') := by
  have htake : cs.take (cs.length - rest.length) = w := by
    rw [← hw, List.length_append, Nat.add_sub_cancel, List.take_left]
  rw [← htake]
  exact .rule h

/-! ## The record -/

namespace Tried

variable {t before after : Tried R} {cs : List Char} {rs rs' : List R}

/-- Nothing was tried at a place or beyond it. -/
def Fresh (t : Tried R) (cs : List Char) : Prop :=
  cs.length < t.place.length ∨ t = ⟨cs, []⟩

theorem Fresh.countAt (h : t.Fresh cs) : t.countAt cs = 0 := by
  rcases h with hlt | rfl
  · exact if_neg (by omega)
  · exact if_pos rfl

theorem Fresh.length_le (h : t.Fresh cs) : cs.length ≤ t.place.length := by
  rcases h with hlt | rfl
  · exact Nat.le_of_lt hlt
  · exact Nat.le_refl _

theorem countAt_mk (cs : List Char) (rs : List R) : countAt ⟨cs, rs⟩ cs = rs.length := if_pos rfl

theorem Fresh.track (h : t.Fresh cs) (r : R) : t.track cs r t = ⟨cs, [r]⟩ := by
  unfold Tried.track
  rw [if_neg (by omega)]
  rcases h with hlt | rfl
  · rw [if_neg (by omega), if_pos hlt]
  · rw [if_pos rfl, List.take_nil, List.nil_append]

theorem track_parts (hcount : before.countAt cs = rs.length) (hparts : rs'.length ≠ 1) (r : R) :
    before.track cs r ⟨cs, rs ++ rs'⟩ = ⟨cs, rs ++ [r]⟩ := by
  unfold Tried.track
  rw [countAt_mk, hcount, List.length_append, if_neg (by omega), if_pos rfl,
    List.take_left]

/-- A single part says more than the rule. -/
theorem track_part (hcount : before.countAt cs = rs.length) (r r' : R) :
    before.track cs r ⟨cs, rs ++ [r']⟩ = ⟨cs, rs ++ [r']⟩ := by
  unfold Tried.track
  rw [countAt_mk, hcount, List.length_append, List.length_singleton, if_pos rfl]

/-- A rule that fails where others have failed is put behind them. -/
theorem track_behind (cs : List Char) (rs : List R) (r : R) :
    Tried.track ⟨cs, rs⟩ cs r ⟨cs, rs⟩ = ⟨cs, rs ++ [r]⟩ := by
  have h : Tried.track ⟨cs, rs⟩ cs r ⟨cs, rs ++ []⟩ = ⟨cs, rs ++ [r]⟩ :=
    track_parts (countAt_mk cs rs) (by simp) r
  rwa [List.append_nil] at h

theorem track_ahead (h : after.place.length < cs.length) (before : Tried R) (r : R) :
    before.track cs r after = after := by
  have hcount : after.countAt cs = 0 := if_neg (by omega)
  unfold Tried.track
  rw [if_neg (by omega), if_neg (by omega), if_neg (by omega)]

theorem length_le_track (h : cs.length ≤ after.place.length) (before : Tried R) (r : R) :
    cs.length ≤ (before.track cs r after).place.length := by
  unfold Tried.track
  split
  · exact h
  · split
    · exact h
    · split
      · exact Nat.le_refl _
      · exact h

end Tried

theorem Matches.notRule_ahead {r : R} {cs : List Char} {t t' : Tried R}
    (h : Matches body text (body r) cs t (.missing t')) (hlt : t'.place.length < cs.length) :
    Matches body text (.rule r) cs t (.missing t') := by
  have hrule := Matches.notRule h
  rwa [Tried.track_ahead hlt] at hrule

end Reckoner
