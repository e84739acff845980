/-
# `Reckoner.Proofs.Settings.Marks` — the gauge reads tokens

The gauge passes over characters: it drops every blank and knows no tokens, so it
might take two stars of two tokens for one power.  In what the reader can read it
never does (`State.marks_after`), because after `*` or `**` an operand is due, and
no operand starts with a star.  Nor do blanks matter: the blanks of a text that has
been cut into tokens are its separators.

So the nesting depth of an expression is the highest reading over the marks of its
tokens (`exists_tokens_of_parse`).
-/
import Reckoner.Proofs.Grammar.Adjacent
import Reckoner.Proofs.Grammar.Parse
import Reckoner.Proofs.Token.Characters
import Reckoner.Settings.Nesting

namespace Reckoner

theorem Munches.filter_eq {cs : List Char} {ts : List Token} (h : Munches cs ts) :
    cs.filter (fun c => !Text.isBlank c) = ts.flatMap Token.text := by
  induction h with
  | done => rfl
  | separator hc _ ih => rw [List.filter_cons_of_neg (by simp [isBlank_of_isSeparator hc]), ih]
  | @token t r ts ht _ _ ih =>
      have hkeep : t.text.filter (fun c => !Text.isBlank c) = t.text := by
        rw [List.filter_eq_self]
        intro c hc
        rw [ht.isBlank_of_mem_text hc]
        rfl
      rw [List.filter_append, hkeep, ih, List.flatMap_cons]

theorem Munches.length_le_filter {cs : List Char} {ts : List Token} (h : Munches cs ts) :
    ts.length ≤ (cs.filter fun c => !Text.isBlank c).length := by
  rw [h.filter_eq]
  have hw := (munches_iff.mp h).2
  clear h
  induction ts with
  | nil => exact Nat.le_refl 0
  | cons t ts ih =>
      obtain ⟨ht, hts⟩ := List.forall_mem_cons.mp hw
      have := List.length_pos_iff.mpr ht.text_ne_nil
      have := ih hts
      rw [List.flatMap_cons, List.length_append, List.length_cons]
      omega

/-! ## Marks of tokens -/

def Token.marks (t : Token) : List Mark := Reckoner.marks t.text

theorem getLast?_cons_of_eq_some {α : Type} {a b : α} {l : List α} (h : l.getLast? = some b) :
    (a :: l).getLast? = some b := by
  rw [List.getLast?_cons, h]
  rfl

theorem marks_cons_other {c : Char} {cs : List Char}
    (hstar : ∀ r, c = '*' → cs ≠ '*' :: r) (hother : c ≠ '(' ∧ c ≠ ')' ∧ c ≠ '+' ∧ c ≠ '-') :
    marks (c :: cs) = .other :: marks cs := by
  obtain ⟨h₁, h₂, h₃, h₄⟩ := hother
  rw [marks]
  · exact fun r hc hr => hstar r hc hr
  · exact h₁
  · exact h₂
  · exact h₃
  · exact h₄

/-- Marks are those of the parts, unless a star on either side of the cut makes a power. -/
theorem marks_append {xs ys : List Char} (h : xs.getLast? = some '*' → ys.head? ≠ some '*') :
    marks (xs ++ ys) = marks xs ++ marks ys := by
  induction xs using marks.induct with
  | case1 => rfl
  | case2 cs ih =>
      have := ih fun hl => h (getLast?_cons_of_eq_some (getLast?_cons_of_eq_some hl))
      simp only [List.cons_append, marks, this]
  | case3 cs ih | case4 cs ih | case5 cs ih | case6 cs ih =>
      have := ih fun hl => h (getLast?_cons_of_eq_some hl)
      simp only [List.cons_append, marks, this]
  | case7 c cs hstar h₁ h₂ h₃ h₄ ih =>
      have hcut : ∀ r, c = '*' → cs ++ ys ≠ '*' :: r := by
        intro r hc heq
        cases cs with
        | nil =>
            rw [List.nil_append] at heq
            exact h (by rw [hc]; rfl) (by rw [heq]; rfl)
        | cons d ds => exact hstar ds hc (by rw [(List.cons.inj heq).1])
      have := ih fun hl => h (getLast?_cons_of_eq_some hl)
      rw [List.cons_append, marks_cons_other hcut ⟨h₁, h₂, h₃, h₄⟩, this,
        marks_cons_other (fun r hc hr => hstar r hc hr) ⟨h₁, h₂, h₃, h₄⟩, List.cons_append]

theorem State.marks_after {q q' : State} {ts : List Token} (h : q.after ts = some q')
    (hw : ∀ t ∈ ts, t.WellFormed) : marks (ts.flatMap Token.text) = ts.flatMap Token.marks := by
  induction ts generalizing q with
  | nil => rfl
  | cons t ts ih =>
      have ht := hw t List.mem_cons_self
      have hws : ∀ u ∈ ts, u.WellFormed := fun u hu => hw u (List.mem_cons_of_mem _ hu)
      cases hs : q.step t with
      | none => exact absurd h (by simp [State.after, hs])
      | some q'' =>
          rw [State.after_cons hs] at h
          rw [List.flatMap_cons, List.flatMap_cons, marks_append ?_, ih h hws]
          · rfl
          intro hlast
          obtain ⟨stack, rfl⟩ : ∃ stack, q'' = .due stack := by
            have hmem := List.mem_of_getLast? hlast
            rcases (ht.of_mem_text hmem).2.2 rfl with rfl | rfl
            · exact State.due_of_step_operator hs
            · exact State.due_of_step_operator hs
          exact State.head_ne_star_of_due h hws

theorem exists_tokens_of_parse {s : String} {e : Expr} (h : Expr.parse s = .ok e) :
    ∃ ts, Munches s.toList ts ∧ Derives .sum ts e ∧
      nestingDepth s = ({} : Gauge).peak (ts.flatMap Token.marks) := by
  obtain ⟨ts, hts, hsentence⟩ := derives_lex_iff.mp (derives_of_parse h).1
  refine ⟨ts, hts, hsentence.derives, ?_⟩
  obtain ⟨q, hq, _⟩ := hsentence.derives.after (admits_nil .sum)
  rw [nestingDepth, hts.filter_eq, State.marks_after hq (munches_iff.mp hts).2]

end Reckoner
