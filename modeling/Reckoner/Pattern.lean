/-
# `Reckoner.Pattern` — reading by ordered choice

A grammar of ordered choice says how a text is read.  Of two alternatives the
second is tried only where the first has failed; an option and a repetition take
what they can get; and what has matched is never taken back to be matched in
another way.

Rules have names.  A rule that matches leaves a node with the text it has matched
and the nodes inside.  A rule that fails is put on record: `Tried` is the furthest
place where rules were tried in vain, and which they were.  That is all that is
known about a text that does not match as a whole.
-/
namespace Reckoner

/-- What a text is matched against; `R` are the names of rules. -/
inductive Pattern (R : Type) where
  /-- Nothing, at the start of the text. -/
  | start
  /-- Nothing, at the end of the text. -/
  | stop
  | one (p : Char → Bool)
  /-- As many characters as there are of a kind. -/
  | run (p : Char → Bool)
  | chars (w : List Char)
  | rule (r : R)
  | cat (a b : Pattern R)
  | alt (a b : Pattern R)
  | opt (a : Pattern R)
  | star (a : Pattern R)

/-- A place where a rule has matched. -/
inductive Node (R : Type) where
  | node (rule : R) (text : List Char) (inner : List (Node R))

/-- The furthest place where rules were tried in vain, and these rules in order. -/
structure Tried (R : Type) where
  /-- The text from the place on. -/
  place : List Char
  rules : List R

variable {R : Type}

namespace Tried

/-- How many rules are on record for the place at which `cs` is still to come. -/
def countAt (t : Tried R) (cs : List Char) : Nat :=
  if t.place.length = cs.length then t.rules.length else 0

/-- The record when the rule `r` has failed at `cs`, where `before` is the record from the
beginning of the rule and `after` the one that its parts have left.

A rule is put down in place of those of its parts that failed where it began itself, since it says
more than they do; but a single part says more than the rule. -/
def track (before : Tried R) (cs : List Char) (r : R) (after : Tried R) : Tried R :=
  if after.countAt cs = before.countAt cs + 1 then after
  else if after.place.length = cs.length then
    { after with rules := after.rules.take (before.countAt cs) ++ [r] }
  else if cs.length < after.place.length then ⟨cs, [r]⟩
  else after

end Tried

/-- What comes of matching: nodes and the rest of the text, or nothing. -/
inductive Outcome (R : Type) where
  | found (nodes : List (Node R)) (rest : List Char) (tried : Tried R)
  | missing (tried : Tried R)

/-- `Matches body text p cs t o`: with the rules `body`, matching `p` at the place in `text` where
`cs` is still to come, and with `t` on record, comes to `o`. -/
inductive Matches (body : R → Pattern R) (text : List Char) :
    Pattern R → List Char → Tried R → Outcome R → Prop where
  | start {t : Tried R} : Matches body text .start text t (.found [] text t)
  | notStart {cs : List Char} {t : Tried R} :
      cs ≠ text → Matches body text .start cs t (.missing t)
  | stop {t : Tried R} : Matches body text .stop [] t (.found [] [] t)
  | notStop {cs : List Char} {t : Tried R} : cs ≠ [] → Matches body text .stop cs t (.missing t)
  | one {p : Char → Bool} {c : Char} {cs : List Char} {t : Tried R} :
      p c = true → Matches body text (.one p) (c :: cs) t (.found [] cs t)
  | notOne {p : Char → Bool} {cs : List Char} {t : Tried R} :
      (∀ c ∈ cs.head?, p c = false) → Matches body text (.one p) cs t (.missing t)
  | run {p : Char → Bool} {cs : List Char} {t : Tried R} :
      Matches body text (.run p) cs t (.found [] (cs.dropWhile p) t)
  | chars {w cs rest : List Char} {t : Tried R} :
      cs = w ++ rest → Matches body text (.chars w) cs t (.found [] rest t)
  | notChars {w cs : List Char} {t : Tried R} :
      (∀ rest, cs ≠ w ++ rest) → Matches body text (.chars w) cs t (.missing t)
  | rule {r : R} {cs rest : List Char} {t t' : Tried R} {nodes : List (Node R)} :
      Matches body text (body r) cs t (.found nodes rest t') →
      Matches body text (.rule r) cs t
        (.found [.node r (cs.take (cs.length - rest.length)) nodes] rest t')
  | notRule {r : R} {cs : List Char} {t t' : Tried R} :
      Matches body text (body r) cs t (.missing t') →
      Matches body text (.rule r) cs t (.missing (t.track cs r t'))
  | cat {a b : Pattern R} {cs cs' rest : List Char} {t t' t'' : Tried R}
      {nodes nodes' : List (Node R)} :
      Matches body text a cs t (.found nodes cs' t') →
      Matches body text b cs' t' (.found nodes' rest t'') →
      Matches body text (.cat a b) cs t (.found (nodes ++ nodes') rest t'')
  | notFirst {a b : Pattern R} {cs : List Char} {t t' : Tried R} :
      Matches body text a cs t (.missing t') → Matches body text (.cat a b) cs t (.missing t')
  | notSecond {a b : Pattern R} {cs cs' : List Char} {t t' t'' : Tried R}
      {nodes : List (Node R)} :
      Matches body text a cs t (.found nodes cs' t') →
      Matches body text b cs' t' (.missing t'') →
      Matches body text (.cat a b) cs t (.missing t'')
  | first {a b : Pattern R} {cs rest : List Char} {t t' : Tried R} {nodes : List (Node R)} :
      Matches body text a cs t (.found nodes rest t') →
      Matches body text (.alt a b) cs t (.found nodes rest t')
  | second {a b : Pattern R} {cs : List Char} {t t' : Tried R} {o : Outcome R} :
      Matches body text a cs t (.missing t') → Matches body text b cs t' o →
      Matches body text (.alt a b) cs t o
  | opt {a : Pattern R} {cs rest : List Char} {t t' : Tried R} {nodes : List (Node R)} :
      Matches body text a cs t (.found nodes rest t') →
      Matches body text (.opt a) cs t (.found nodes rest t')
  | notOpt {a : Pattern R} {cs : List Char} {t t' : Tried R} :
      Matches body text a cs t (.missing t') → Matches body text (.opt a) cs t (.found [] cs t')
  | more {a : Pattern R} {cs cs' rest : List Char} {t t' t'' : Tried R}
      {nodes nodes' : List (Node R)} :
      Matches body text a cs t (.found nodes cs' t') →
      Matches body text (.star a) cs' t' (.found nodes' rest t'') →
      Matches body text (.star a) cs t (.found (nodes ++ nodes') rest t'')
  | noMore {a : Pattern R} {cs : List Char} {t t' : Tried R} :
      Matches body text a cs t (.missing t') → Matches body text (.star a) cs t (.found [] cs t')

end Reckoner
