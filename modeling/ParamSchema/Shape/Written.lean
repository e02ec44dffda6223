import ParamSchema.Shape.Describe

/-!
The members that are written in the body of an object type or of an interface: properties, methods
and index signatures.
-/

namespace ParamSchema

/-- A property of a type. -/
structure Property where
  name : Text
  optional : Bool
  shape : Shape
  /-- Where it is declared. -/
  site : Site

/-- The types of keys that index signatures can have. -/
inductive IndexKey where
  | string
  | number
  deriving DecidableEq, Repr

namespace IndexKey

def text : IndexKey → Text
  | .string => txt "string"
  | .number => txt "number"

def all : List IndexKey := [.string, .number]

/-- The type of keys that a text names. -/
def ofText? (t : Text) : Option IndexKey := all.find? (·.text == t)

end IndexKey

namespace Site

/-- The property that a member declares. A method has its own text for a type. -/
def property? (member : Site) : Except Overflow (Option Property) := do
  let named (shape : Shape) : Except Overflow (Option Property) := do
    let name ← member.file.propertyName (member.node.child? .name)
    return some ⟨name, member.node.hasToken "?", shape, member⟩
  match member.node.kind with
  | .propertySignature => named (← Site.shape? (member.child? .type))
  | .methodSignature => named (.verbatim member.text)
  | _ => return none

/-- The properties and methods written in a body, in source order. -/
def properties (body : Site) : Except Overflow (List Property) :=
  return (← body.named.mapM property?).filterMap id

/-- The type of keys of an index signature. -/
def indexKey? (member : Site) : Option IndexKey :=
  let key := (member.child? .indexType).orElse fun _ =>
    member.named.find? (·.node.kind == .predefinedType)
  key.bind fun key => IndexKey.ofText? (Text.trim key.text)

/-- The index signature that a member declares. -/
def indexSignature? (member : Site) : Except Overflow (Option (IndexKey × Shape)) := do
  if member.node.kind != .indexSignature then return none
  match member.indexKey? with
  | none => return none
  | some key =>
    let value := (member.child? .type).orElse fun _ =>
      member.named.find? (·.node.kind == .typeClause)
    return some (key, ← Site.shape? value)

/-- The index signatures written in a body, in source order. -/
def indexSignatures (body : Site) : Except Overflow (List (IndexKey × Shape)) :=
  return (← body.named.mapM indexSignature?).filterMap id

end Site

end ParamSchema
