import ParamSchema.Resolver
import ParamSchema.Search

/-!
The leaves of a type: what is left of it when unions are taken apart and references are followed.
The leaves say which primitive kinds of values a type has, and which literal values it lists.

A reference that is met below itself adds no leaves. What cannot be represented is an error among
the leaves, in its place.
-/

namespace ParamSchema

/-- The primitive kinds of values that a parameter can have. -/
inductive PrimitiveKind where
  | boolean
  | number
  | string
  deriving DecidableEq, Repr

namespace PrimitiveKind

def text : PrimitiveKind → Text
  | .boolean => txt "boolean"
  | .number => txt "number"
  | .string => txt "string"

/-- The kinds in the order of their texts. -/
def all : List PrimitiveKind := [.boolean, .number, .string]

def ofText? (t : Text) : Option PrimitiveKind := all.find? (·.text == t)

end PrimitiveKind

namespace LiteralValue

def kind : LiteralValue → PrimitiveKind
  | .text _ => .string
  | .number _ => .number
  | .boolean _ => .boolean

/-- The text of a value that is listed; truth values are not. -/
def listed? : LiteralValue → Option Text
  | .text t => some t
  | .number x => some x.text
  | .boolean _ => none

end LiteralValue

/-- A type that is taken apart no further. -/
inductive Leaf where
  | literal (value : LiteralValue)
  | primitive (kind : PrimitiveKind)
  /-- A type without a primitive kind. -/
  | other
  deriving DecidableEq, Repr

namespace Leaf

/-- The primitive kind of a leaf. -/
def kind? : Leaf → Option PrimitiveKind
  | .literal value => some value.kind
  | .primitive kind => some kind
  | .other => none

/-- The value that a leaf lists. -/
def listed? : Leaf → Option Text
  | .literal value => value.listed?
  | _ => none

end Leaf

namespace Resolver

/-- One step down in a type. Unions leave out the types without a value; a union with nothing else
is a leaf. -/
def leafStep (r : Resolver) : Shape → List (Shape ⊕ Except Overflow Leaf)
  | .literal value => [.inr (.ok (.literal value))]
  | .primitive name =>
    [.inr (.ok (((PrimitiveKind.ofText? name).map Leaf.primitive).getD .other))]
  | .union members =>
    match members.filter (!·.isNullish) with
    | [] => [.inr (.ok .other)]
    | branches => branches.map .inl
  | .reference name arguments site =>
    match r.target? (.reference name arguments site) with
    | .error cause => [.inr (.error cause)]
    | .ok none => [.inr (.ok .other)]
    | .ok (some target) => [.inl target]
  | _ => [.inr (.ok .other)]

/-- The leaves of a type, from left to right. -/
def leaves (r : Resolver) (s : Shape) : List (Except Overflow Leaf) :=
  Search.along Shape.token? r.leafStep (r.bound s) [] s

/-- The primitive kinds of leaves, up to the first leaf that has none. -/
def leafKinds : List (Except Overflow Leaf) → Except Overflow (Option (List PrimitiveKind))
  | [] => return some []
  | .error cause :: _ => throw cause
  | .ok leaf :: rest =>
    match leaf.kind? with
    | none => return none
    | some kind => return (← leafKinds rest).map (kind :: ·)

/-- The text for a set of primitive kinds; it says so when nothing is known. -/
def kindsText (kinds : List PrimitiveKind) : Text :=
  match PrimitiveKind.all.filter kinds.contains with
  | [] => txt "unknown"
  | kinds => Text.joinWith (txt " | ") (kinds.map PrimitiveKind.text)

/-- The primitive kinds of a type, if it has nothing but such. -/
def typeText (r : Resolver) (s : Shape) : Except Overflow Text :=
  return kindsText ((← leafKinds (r.leaves s)).getD [])

/-- The literal values of a type, in increasing order. -/
def listedValues (r : Resolver) (s : Shape) : Except Overflow (List Text) :=
  return Text.sortedDistinct ((← (r.leaves s).mapM id).filterMap Leaf.listed?)

end Resolver

end ParamSchema
