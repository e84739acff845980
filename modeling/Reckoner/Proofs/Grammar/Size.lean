/-
# `Reckoner.Proofs.Grammar.Size` — a tree is no larger than its text

Every node of a tree that has been read owns a token: a leaf its word, a sign or an operator
itself, a call the name of its routine.  No two nodes share one, parentheses and commas belong to
none, and every token has a character that is no blank.  So a tree has no more nodes than its text
has such characters (`Derives.size_le_length`).

That bounds how deep evaluation recurses.  The gauge does not: a chain of terms reads 1, while its
tree leans to the left and is as deep as the chain is long.  Only the limit on the length of a
text is a limit on the recursion (`size_le_of_parse`).
-/
import Reckoner.Proofs.Expr.Stack
import Reckoner.Proofs.Settings.Surface
import Reckoner.Routine.Standard

namespace Reckoner

mutual
theorem Derives.size_le_length : ∀ {k : Level} {ts : List Token} {e : Expr}, Derives k ts e →
    e.size ≤ ts.length
  | _, _, _, .number _ | _, _, _, .name _ => Nat.le_refl 1
  | _, _, _, .group h => by
      have := h.size_le_length
      rw [List.length_cons, List.length_append]
      omega
  | _, _, _, .callNothing _ => by
      rw [Expr.size, Expr.sizeList]
      exact Nat.le_add_right 1 2
  | _, _, _, .call _ h => by
      have := h.sizeList_le_length
      rw [Expr.size, List.length_cons, List.length_cons, List.length_append]
      omega
  | _, _, _, .signed _ h => by
      have := h.size_le_length
      rw [Expr.size, List.length_cons]
      omega
  | _, _, _, .binary _ hl hr => by
      have := hl.size_le_length
      have := hr.size_le_length
      rw [Expr.size, List.length_append, List.length_cons]
      omega
  | _, _, _, .loosen _ h => h.size_le_length
theorem DerivesList.sizeList_le_length : ∀ {ts : List Token} {es : List Expr},
    DerivesList ts es → Expr.sizeList es ≤ ts.length
  | _, _, .last h => by
      have := h.size_le_length
      rw [Expr.sizeList, Expr.sizeList]
      omega
  | _, _, .cons h hs => by
      have := h.size_le_length
      have := hs.sizeList_le_length
      rw [Expr.sizeList, List.length_append, List.length_cons]
      omega
end

theorem size_le_length_visible {s : String} {t : Expr} (h : Expr.parse s = .ok t) :
    t.size ≤ (visible s).length := by
  obtain ⟨ts, hts, hderives, -⟩ := exists_tokens_of_parse h
  exact Nat.le_trans hderives.size_le_length hts.length_le_filter

/-- **A tree is no larger than its text.**  The nodes of a tree that has been read, and so also its
depth, are no more than the characters of the text that are no blanks.  A stack with room for that
many evaluations does not overflow while the tree is evaluated, whatever the routines and the
variables; if the evaluation succeeds, it needs room for exactly the depth of the tree.  For a text
within the limits, room for the longest text that is allowed is enough. -/
theorem size_le_of_parse {s : String} {t : Expr} (h : Expr.parse s = .ok t) :
    t.size ≤ (visible s).length ∧ t.depth ≤ (visible s).length ∧
    (∀ r vars n, (visible s).length ≤ n →
      t.evalWithin r vars n = (t.eval r vars).mapError some) ∧
    (∀ r vars n v, t.eval r vars = .ok v → (t.evalWithin r vars n = .ok v ↔ t.depth ≤ n)) ∧
    ∀ c : Settings, c.check s = .ok () → ∀ r vars,
      t.evalWithin r vars c.maxLength = (t.eval r vars).mapError some := by
  have hsize := size_le_length_visible h
  have hdepth := Nat.le_trans t.depth_le_size hsize
  refine ⟨hsize, hdepth, fun r vars n hn => ?_, fun r vars n v hv => Expr.evalWithin_eq_ok_iff hv,
    fun c hc r vars => ?_⟩
  · exact t.evalWithin_of_depth_le n (Nat.le_trans hdepth hn)
  · have hlength := (check_eq_ok_iff.mp hc).1
    exact t.evalWithin_of_depth_le _
      (Nat.le_trans hdepth (Nat.le_trans (length_visible_le s) hlength))

/-- A chain of differences, with nothing to spare: it reads 1, every visible character is a node,
and evaluation needs room for all the terms. -/
theorem size_le_of_parse_chain :
    let t : Expr := .binary .subtract (.binary .subtract (.binary .subtract (.name "x")
      (.name "x")) (.name "x")) (.name "x")
    let c : Settings := { maxLength := 9, maxDepth := 1 }
    let vars : Bindings := [("x", 1.0)]
    Expr.parse "x - x-x-x" = .ok t ∧ c.check "x - x-x-x" = .ok () ∧
      t.size = 7 ∧ (visible "x - x-x-x").length = 7 ∧ t.size ≤ (visible "x - x-x-x").length ∧
      t.eval .standard vars = .ok (-2.0) ∧
      t.evalWithin .standard vars c.maxLength = .ok (-2.0) ∧
      t.depth = 4 ∧ t.evalWithin .standard vars 3 ≠ .ok (-2.0) := by
  intro t c vars
  have hparse : Expr.parse "x - x-x-x" = .ok t := by with_unfolding_all rfl
  have hcheck : c.check "x - x-x-x" = .ok () := by decide
  have hvalue : t.eval .standard vars = .ok (-2.0) := by with_unfolding_all rfl
  obtain ⟨hsize, -, -, hexact, hroom⟩ := size_le_of_parse hparse
  refine ⟨hparse, hcheck, rfl, by decide, hsize, hvalue, ?_, rfl, ?_⟩
  · rw [hroom c hcheck .standard vars, hvalue]
    rfl
  · rw [ne_eq, hexact .standard vars 3 _ hvalue]
    decide

end Reckoner
