/-
# `Reckoner.Proofs.Grammar.Leaves` — the leaves of a tree are those of its tokens

Reading a phrase moves no leaf and makes none up: the numbers of its tree are the
values of its literals, and its words, routines included, are the names among its
tokens, in the same order.
-/
import Reckoner.Proofs.Grammar.Parse

namespace Reckoner

mutual
def Expr.numbers : Expr → List Number
  | .number v => [v]
  | .name _ => []
  | .signed _ e => e.numbers
  | .binary _ l r => l.numbers ++ r.numbers
  | .call _ es => numbersList es
def Expr.numbersList : List Expr → List Number
  | [] => []
  | e :: es => e.numbers ++ numbersList es
end

def Token.literal? : Token → Option Decimal.Literal
  | .number l => some l
  | _ => none

theorem mem_filterMap_literal? {ts : List Token} {l : Decimal.Literal} :
    l ∈ ts.filterMap Token.literal? ↔ .number l ∈ ts := by
  rw [List.mem_filterMap]
  constructor
  · rintro ⟨t, ht, htl⟩
    cases t with
    | number l' =>
        obtain rfl := Option.some.inj htl
        exact ht
    | _ => exact nomatch htl
  · intro hl
    exact ⟨_, hl, rfl⟩

def literalValues (ts : List Token) : List Number :=
  (ts.filterMap Token.literal?).map fun l => .ofFloat l.value

@[simp] theorem literalValues_nil : literalValues [] = [] := rfl

@[simp] theorem literalValues_append (ts us : List Token) :
    literalValues (ts ++ us) = literalValues ts ++ literalValues us := by
  simp [literalValues]

theorem literalValues_cons {t : Token} (ht : t.literal? = none) (ts : List Token) :
    literalValues (t :: ts) = literalValues ts := by
  simp [literalValues, ht]

mutual
theorem Derives.numbers_eq : ∀ {k : Level} {ts : List Token} {e : Expr}, Derives k ts e →
    e.numbers = literalValues ts
  | _, _, _, .number _ => rfl
  | _, _, _, .name _ => rfl
  | _, _, _, .group h => by
      rw [literalValues_cons rfl, literalValues_append, literalValues_cons rfl, h.numbers_eq]
      simp
  | _, _, _, .callNothing _ => rfl
  | _, _, _, .call _ h => by
      rw [literalValues_cons rfl, literalValues_cons rfl, literalValues_append,
        literalValues_cons rfl, Expr.numbers, h.numbersList_eq]
      simp
  | _, _, _, .signed _ h => by
      rw [literalValues_cons rfl, Expr.numbers, h.numbers_eq]
  | _, _, _, .binary _ hl hr => by
      rw [literalValues_append, literalValues_cons rfl, Expr.numbers, hl.numbers_eq,
        hr.numbers_eq]
  | _, _, _, .loosen _ h => h.numbers_eq
theorem DerivesList.numbersList_eq : ∀ {ts : List Token} {es : List Expr}, DerivesList ts es →
    Expr.numbersList es = literalValues ts
  | _, _, .last h => by
      rw [Expr.numbersList, Expr.numbersList, h.numbers_eq, List.append_nil]
  | _, _, .cons h hs => by
      rw [literalValues_append, literalValues_cons rfl, Expr.numbersList, h.numbers_eq,
        hs.numbersList_eq]
end

/-! ## Words -/

mutual
/-- The names in a tree, those of routines included, from left to right. -/
def Expr.words : Expr → List String
  | .number _ => []
  | .name x => [x]
  | .signed _ e => e.words
  | .binary _ l r => l.words ++ r.words
  | .call f es => f :: wordsList es
def Expr.wordsList : List Expr → List String
  | [] => []
  | e :: es => e.words ++ wordsList es
end

def Token.name? : Token → Option String
  | .name x => some x
  | _ => none

mutual
theorem Derives.words_eq : ∀ {k : Level} {ts : List Token} {e : Expr}, Derives k ts e →
    e.words = ts.filterMap Token.name?
  | _, _, _, .number _ => rfl
  | _, _, _, .name _ => rfl
  | _, _, _, .group h => by simp [List.filterMap_cons, Token.name?, h.words_eq]
  | _, _, _, .callNothing _ => rfl
  | _, _, _, .call _ h => by simp [List.filterMap_cons, Token.name?, Expr.words, h.wordsList_eq]
  | _, _, _, .signed _ h => by simp [List.filterMap_cons, Token.name?, Expr.words, h.words_eq]
  | _, _, _, .binary _ hl hr => by
    simp [List.filterMap_cons, Token.name?, Expr.words, hl.words_eq, hr.words_eq]
  | _, _, _, .loosen _ h => h.words_eq
theorem DerivesList.wordsList_eq : ∀ {ts : List Token} {es : List Expr}, DerivesList ts es →
    Expr.wordsList es = ts.filterMap Token.name?
  | _, _, .last h => by simp [Expr.wordsList, h.words_eq]
  | _, _, .cons h hs => by
    simp [List.filterMap_cons, Token.name?, Expr.wordsList, h.words_eq, hs.wordsList_eq]
end

/-! ## Trees that have been read -/

theorem isFinite_of_mem_numbers_parse {s : String} {e : Expr} (h : Expr.parse s = .ok e) :
    ∀ v ∈ e.numbers, v.isFinite = true := by
  obtain ⟨hderives, hrange⟩ := derives_of_parse h
  intro v hv
  rw [hderives.numbers_eq] at hv
  obtain ⟨l, hl, rfl⟩ := List.mem_map.mp hv
  exact hrange l (mem_filterMap_literal?.mp hl)

end Reckoner
