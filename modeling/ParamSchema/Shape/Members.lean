import ParamSchema.Resolver
import ParamSchema.Search
import ParamSchema.Shape.Written

/-!
The members of a type. A type has the members of all bodies that its references, the members of its
intersections and the bases of its interfaces lead to. A body that comes first is met first: those
of an interface before those of its bases, and the members of an intersection in their order.
-/

namespace ParamSchema

/-- A source of members. -/
inductive Body where
  /-- Members as they are written. -/
  | written (site : Site)
  /-- One member for each key. -/
  | keyed (key value : Shape) (site : Site)

namespace Site

/-- The types that the declaration of an interface extends. -/
def bases (declaration : Site) : Except Overflow (List Shape) :=
  ((declaration.named.filter (·.node.kind == .extendsTypeClause)).flatMap Site.named).mapM shape

end Site

namespace Resolver

/-- What a reference leads to. -/
def follow {β : Type} (r : Resolver) (s : Shape) : List (Shape ⊕ Except Overflow β) :=
  match r.target? s with
  | .error cause => [.inr (.error cause)]
  | .ok target => target.toList.map .inl

/-- One step towards the bodies of a type. -/
def bodyStep (r : Resolver) : Shape → List (Shape ⊕ Except Overflow Body)
  | .object site => [.inr (.ok (.written site))]
  | .record key value site => [.inr (.ok (.keyed key value site))]
  | .interface _ declarations =>
    (declarations.filterMap (·.child? .body)).map (fun site => .inr (.ok (.written site))) ++
      match declarations.mapM Site.bases with
      | .error cause => [.inr (.error cause)]
      | .ok bases => bases.flatten.map .inl
  | .intersection members _ => members.map .inl
  | .reference name arguments site => r.follow (.reference name arguments site)
  | _ => []

/-- The bodies of a type in their order; without a program none is known. -/
def bodies (r : Resolver) (s : Shape) : List (Except Overflow Body) :=
  if r.resolvesNames then Search.along Shape.token? r.bodyStep (r.bound s) [] s else []

/-- The keys of the types on a stack, with unions taken apart and references followed, each
reference once. -/
def keysFrom (r : Resolver) : Nat → List Token → List Shape → Except Overflow (List Shape)
  | 0, _, _ => return []
  | _ + 1, _, [] => return []
  | n + 1, seen, .union members :: rest => r.keysFrom n seen (members ++ rest)
  | n + 1, seen, .reference name arguments site :: rest => do
    let token := site.token 2
    if seen.contains token then r.keysFrom n seen rest
    else
      let target ← r.target? (.reference name arguments site)
      r.keysFrom n (token :: seen) (target.toList ++ rest)
  | n + 1, seen, s :: rest => return s :: (← r.keysFrom n seen rest)

/-- The keys that a type of keys stands for. -/
def keys (r : Resolver) (key : Shape) : Except Overflow (List Shape) :=
  r.keysFrom (r.bound key) [] [key]

/-- The property that a key gives. -/
def keyProperty? (value : Shape) (site : Site) : Shape → Option Property
  | .literal (.text name) => some ⟨name, false, value, site⟩
  | .literal (.number x) => some ⟨x.text, false, value, site⟩
  | _ => none

/-- The properties of a body. -/
def bodyProperties (r : Resolver) : Body → Except Overflow (List Property)
  | .written site => site.properties
  | .keyed key value site => return (← r.keys key).filterMap (keyProperty? value site)

/-- Whether a key stands for all keys of a primitive type. -/
def isIndex (key : IndexKey) : Shape → Bool
  | .primitive name => name == key.text
  | _ => false

/-- The type of the values of a body under keys that are not named. -/
def bodyIndex? (r : Resolver) (key : IndexKey) : Body → Except Overflow (Option Shape)
  | .written site => return ((← site.indexSignatures).find? (·.1 == key)).map (·.2)
  | .keyed keys value _ =>
    return if (← r.keys keys).any (isIndex key) then some value else none

/-- All properties of a type, those met first in front. Names may be repeated. -/
def properties (r : Resolver) (s : Shape) : Except Overflow (List Property) := do
  let bodies ← (r.bodies s).mapM id
  return (← bodies.mapM r.bodyProperties).flatten

/-- The first index type for a type of keys. -/
def firstIndex? (r : Resolver) (key : IndexKey) :
    List (Except Overflow Body) → Except Overflow (Option Shape)
  | [] => return none
  | .error cause :: _ => throw cause
  | .ok body :: rest => do
    match ← r.bodyIndex? key body with
    | some value => return some value
    | none => r.firstIndex? key rest

/-- The type of the values of a type under keys that are not named. -/
def indexed? (r : Resolver) (s : Shape) (key : IndexKey) : Except Overflow (Option Shape) :=
  r.firstIndex? key (r.bodies s)

end Resolver

end ParamSchema
