import ParamSchema.Source.File

/-!
Shapes of types. A shape is what the syntax of a type says at once: a reference to a named type
stays a reference, and the members of an object type stay where they are written.
-/

namespace ParamSchema

/-- The value of a literal type. -/
inductive LiteralValue where
  | text (value : Text)
  | number (value : Double)
  | boolean (value : Bool)
  deriving DecidableEq, Repr

inductive Shape where
  | primitive (name : Text)
  | literal (value : LiteralValue)
  | union (members : List Shape)
  | intersection (members : List Shape) (site : Site)
  /-- An object type with members of its own. -/
  | object (site : Site)
  /-- An object type with a value type for all keys of a type. -/
  | record (key value : Shape) (site : Site)
  /-- An interface with all its declarations. -/
  | interface (name : Text) (declarations : List Site)
  | reference (name : Text) (arguments : List Shape) (site : Site)
  /-- Any other type, as it is written. -/
  | verbatim (text : Text)

namespace Place

/-- The number of nodes at and around a place, those inside others counted for each. -/
def extent : Place → Nat
  | .root n => n.size
  | .part parent _ n => n.size + parent.extent

end Place

/-- The identity of a type by the place of its declaration. -/
structure Token where
  /-- The kind of shape, as a place may declare shapes of several kinds. -/
  tag : Nat
  path : Path
  start : Nat
  stop : Nat
  deriving DecidableEq, Repr

namespace Site

def token (s : Site) (tag : Nat) : Token := ⟨tag, s.file.path, s.node.start, s.node.stop⟩

def extent (s : Site) : Nat := s.place.extent

def extents : List Site → Nat
  | [] => 0
  | s :: rest => s.extent + extents rest

end Site

namespace Shape

/-- The identity of the shapes that may contain themselves. -/
def token? : Shape → Option Token
  | .intersection _ site => some (site.token 0)
  | .interface _ declarations => declarations.head?.map (·.token 1)
  | .reference _ _ site => some (site.token 2)
  | _ => none

mutual

/-- A bound for what can be reached from a shape inside the files that it is written in. -/
def weight : Shape → Nat
  | .primitive _ => 1
  | .literal _ => 1
  | .union members => weights members + 1
  | .intersection members site => weights members + site.extent + 1
  | .object site => site.extent + 1
  | .record key value site => key.weight + value.weight + site.extent + 1
  | .interface _ declarations => Site.extents declarations + 1
  | .reference _ arguments site => weights arguments + site.extent + 1
  | .verbatim _ => 1

def weights : List Shape → Nat
  | [] => 0
  | s :: rest => s.weight + weights rest

end

/-- The type of what has no type written. -/
def any : Shape := .primitive (txt "any")

/-- Whether a shape is one of the types without a value, which unions leave out. -/
def isNullish : Shape → Bool
  | .primitive name => name == txt "null" || name == txt "undefined"
  | _ => false

end Shape

end ParamSchema
