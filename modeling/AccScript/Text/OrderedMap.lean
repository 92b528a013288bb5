/-!
# Maps that keep the order of insertion

An ordered map is a list of pairs with distinct keys. Replacing a value keeps the place of its
key, a new key goes to the end.
-/

namespace AccScript

/-- Values by key, in the order in which the keys were first inserted. -/
abbrev OrderedMap (κ α : Type) := List (κ × α)

namespace OrderedMap

variable {κ α : Type} [DecidableEq κ]

def get? (m : OrderedMap κ α) (key : κ) : Option α :=
  List.lookup key m

def insert (m : OrderedMap κ α) (key : κ) (value : α) : OrderedMap κ α :=
  match m with
  | [] => [(key, value)]
  | (other, old) :: rest =>
      if other = key then (key, value) :: rest else (other, old) :: insert rest key value

/-- Changes the value of a key, if it has one. -/
def modify (m : OrderedMap κ α) (key : κ) (f : α → α) : OrderedMap κ α :=
  m.map fun entry => if entry.1 = key then (entry.1, f entry.2) else entry

end OrderedMap

abbrev NameMap (α : Type) := OrderedMap String α

/-- A list without repetitions, in the order of first insertion. -/
def insertNew {α : Type} [DecidableEq α] (items : List α) (a : α) : List α :=
  if a ∈ items then items else items ++ [a]

end AccScript
