import ParamSchema.Documentation.Comment
import ParamSchema.Shape.Leaves
import ParamSchema.Shape.Members

/-!
Rows: the parameters of a type with their primitive kinds, listed values and documentation.
-/

namespace ParamSchema

/-- A parameter. -/
structure Row where
  name : Text
  type : Text
  optional : Bool
  description : Text
  example_ : Option Text
  /-- The values that it accepts, when they are listed. -/
  values : Option (List Text)
  deriving DecidableEq, Repr

namespace Row

/-- The kinds and the listed values of a type. Where one of them cannot be told, neither is. -/
def classify (r : Resolver) (s : Shape) : Text × List Text :=
  match r.typeText s, r.listedValues s with
  | .ok type, .ok values => (type, values)
  | _, _ => (txt "unknown", [])

/-- A list, if it has members. -/
def nonempty {α : Type} (l : List α) : Option (List α) := if l.isEmpty then none else some l

/-- The row of a property. -/
def ofProperty (r : Resolver) (p : Property) : Row :=
  let (type, values) := classify r p.shape
  let comment := DocComment.ofSite p.site
  { name := p.name
    type := if comment.password && type == txt "string" then txt "password" else type
    optional := p.optional
    description := comment.description
    example_ := nonempty comment.example_
    values := nonempty values }

/-- The properties without those whose name an earlier one has. -/
def distinct : List Text → List Property → List Property
  | _, [] => []
  | names, p :: rest =>
    if names.contains p.name then distinct names rest else p :: distinct (p.name :: names) rest

/-- One row for each name, from its first property. -/
def ofProperties (r : Resolver) (properties : List Property) : List Row :=
  (distinct [] properties).map (ofProperty r)

/-- The row for the keys of a type that are not named. -/
def ofIndex? (r : Resolver) (s : Shape) (key : IndexKey) : Except Overflow (Option Row) := do
  match ← r.indexed? s key with
  | none => return none
  | some value =>
    return some
      { name := txt "[key: " ++ key.text ++ txt "]"
        type := ← r.typeText value
        optional := false
        description := []
        example_ := none
        values := none }

/-- The rows of a type: one for each of its properties and of its index types. -/
def ofShape (r : Resolver) (s : Shape) : Except Overflow (List Row) := do
  let rows := ofProperties r (← r.properties s)
  return rows ++ (← IndexKey.all.mapM (ofIndex? r s)).filterMap id

/-- The rows of the type at a site, unless it has none or cannot be represented. -/
def expanded? (r : Resolver) (s : Site) : Option (List Row) :=
  match s.shape.bind (ofShape r) with
  | .ok rows => nonempty rows
  | .error _ => none

/-- The rows of the members that are written in the body at a site. -/
def written (r : Resolver) (body : Site) : Except Overflow (List Row) :=
  return ofProperties r (← body.properties)

end Row

end ParamSchema
