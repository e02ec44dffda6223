/-!
Tables that remember the order in which their keys were first put in. Putting a key again replaces
its value and keeps its place.
-/

namespace ParamSchema

/-- Keys with values, in the order of the keys' first appearance. -/
abbrev Table (κ α : Type) := List (κ × α)

namespace Table

variable {κ α : Type} [BEq κ]

def get? (t : Table κ α) (key : κ) : Option α := t.lookup key

def has (t : Table κ α) (key : κ) : Bool := (t.get? key).isSome

/-- Gives a key a value. -/
def put (key : κ) (value : α) : Table κ α → Table κ α
  | [] => [(key, value)]
  | (k, v) :: rest => if k == key then (k, value) :: rest else (k, v) :: put key value rest

/-- Drops a key. -/
def erase (key : κ) (t : Table κ α) : Table κ α := t.filter (·.1 != key)

def keys (t : Table κ α) : List κ := t.map (·.1)

def values (t : Table κ α) : List α := t.map (·.2)

/-- Puts in the entries of a list one after the other. -/
def ofList (entries : List (κ × α)) : Table κ α :=
  entries.foldl (fun t (key, value) => put key value t) []

end Table

end ParamSchema
