/-
# `Reckoner.Routine.Registry` — the routines an expression may call

A registry finds entries by their names in a table, and keeps beside the table a list of the
names in the order in which they were first registered.  Registering a name again replaces its
entry and keeps its place.  So the table and the list hold the same names, although nothing but
`register` sees to it.

An entry puts a routine under a name of its own, with the count of arguments
that callers must give.  `Entry.call` checks that count before the routine sees
the arguments, and afterwards refuses a result that is not finite although all
arguments are.
-/
import Reckoner.Routine.Basic
import Std.Data.HashMap

namespace Reckoner

/-- The subjects under which routines are listed. -/
inductive Category where
  | trigonometric
  | logarithmic
  | exponential
  | statistical
  deriving DecidableEq, Repr

/-- All categories, in order. -/
def Category.all : List Category := [.trigonometric, .logarithmic, .exponential, .statistical]

def Category.text : Category → String
  | .trigonometric => "trigonometric"
  | .logarithmic => "logarithmic"
  | .exponential => "exponential"
  | .statistical => "statistical"

/-- A routine under the name by which it is called. -/
structure Entry where
  name : String
  arity : Arity
  category : Category
  description : String
  routine : Routine

def Entry.call (e : Entry) (xs : List Number) : Except Fault Number :=
  if e.arity.accepts xs.length then
    match e.routine.run xs with
    | .ok v =>
      if !v.isFinite && xs.all Number.isFinite then .error (.overflow e.name) else .ok v
    | .error fault => .error fault
  else .error (.arity e.name e.arity xs.length)

/-- Entries under their names, and the names in the order in which they were first registered. -/
structure Registry where
  table : Std.HashMap String Entry
  order : List String

namespace Registry

def empty : Registry := ⟨∅, []⟩

def get? (r : Registry) (name : String) : Option Entry := r.table[name]?

def contains (r : Registry) (name : String) : Bool := r.table.contains name

/-- Puts an entry under its name.  Only a name that had none is put into the order. -/
def register (r : Registry) (e : Entry) : Registry where
  table := r.table.insert e.name e
  order := if r.contains e.name then r.order else r.order ++ [e.name]

/-- The registry after several registrations, from left to right. -/
def ofEntries (es : List Entry) : Registry := es.foldl register empty

def entries (r : Registry) : List Entry := r.order.filterMap r.get?

def names (r : Registry) : List String := r.entries.map (·.name)

def size (r : Registry) : Nat := r.order.length

def isEmpty (r : Registry) : Bool := r.order.isEmpty

theorem contains_eq_isSome (r : Registry) (name : String) :
    r.contains name = (r.get? name).isSome :=
  Std.HashMap.contains_eq_isSome_getElem?

@[simp] theorem get?_empty (name : String) : empty.get? name = none :=
  Std.HashMap.getElem?_empty

@[simp] theorem get?_register_self (r : Registry) (e : Entry) :
    (r.register e).get? e.name = some e :=
  Std.HashMap.getElem?_insert_self

theorem get?_register_of_ne (r : Registry) (e : Entry) {name : String} (h : name ≠ e.name) :
    (r.register e).get? name = r.get? name := by
  have hne : (e.name == name) = false := by simpa using fun h' => h h'.symm
  rw [get?, register, Std.HashMap.getElem?_insert, hne]
  rfl

/-! ## Listings -/

/-- Puts the name of an entry behind those of its category. -/
def file (listing : List (Category × List String)) (e : Entry) : List (Category × List String) :=
  listing.map fun g => if g.1 = e.category then (g.1, g.2 ++ [e.name]) else g

/-- The names of every category, in order. -/
def byCategory (r : Registry) : List (Category × List String) :=
  r.entries.foldl file (Category.all.map fun c => (c, []))

/-- Every name with its description, in the order of the names. -/
def descriptions (r : Registry) : List (String × String) :=
  (r.entries.map fun e => (e.name, e.description)).mergeSort fun a b => a.1 ≤ b.1

end Registry

end Reckoner
