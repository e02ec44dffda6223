import ParamSchema.Program.Lookup
import ParamSchema.Shape.Describe

/-!
What a reference to a type stands for: the value of an alias, an interface with all its
declarations, the values of an enumeration, or the argument of a type that keeps the properties of
its argument.
-/

namespace ParamSchema

/-- The generic types whose properties are those of their argument. -/
def transparentTypes : List Text :=
  [txt "Partial", txt "Required", txt "Readonly", txt "NonNullable"]

namespace SourceFile

/-- The values of the members of an enumeration. A member without a value has the number after the
last number; a value that is no literal is some number. -/
def enumShapes (file : SourceFile) : Double → List Node → Except Overflow (List Shape)
  | _, [] => return []
  | next, member :: rest => do
    match member.kind with
    | .enumAssignment =>
      let value := member.child? .value
      if value.any (·.kind == .string) then
        let text ← file.stringValue (value.getD member)
        return .literal (.text text) :: (← file.enumShapes next rest)
      else match ← Numeral.literal? (file.textOf? value) with
        | none => return .primitive (txt "number") :: (← file.enumShapes next rest)
        | some x => return .literal (.number x) :: (← file.enumShapes (x + Double.ofNat 1) rest)
    | .propertyIdentifier | .string =>
      return .literal (.number next) :: (← file.enumShapes (next + Double.ofNat 1) rest)
    | _ => file.enumShapes next rest

/-- The shape of an enumeration: the union of its values. -/
def enumShape (file : SourceFile) (declaration : Node) : Except Overflow Shape :=
  return .union (← file.enumShapes (Double.zero false)
    (((declaration.child? .body).map Node.children).getD []))

end SourceFile

namespace Shape

/-- The shape that declarations of a type give to its name. -/
def ofDeclarations (name : Text) : List Site → Except Overflow (Option Shape)
  | [] => return none
  | first :: rest =>
    match first.node.kind with
    | .typeAlias => return some (← Site.shape? (first.child? .value))
    | .interfaceDeclaration =>
      return some (.interface name
        ((first :: rest).filter (·.node.kind == .interfaceDeclaration)))
    | .enumDeclaration => return some (← first.file.enumShape first.node)
    | _ => return none

end Shape

namespace Program

/-- The declarations of the type that a name refers to. -/
def typeDeclarations (p : Program) (name : Text) (site : Site) : List Site :=
  if name.contains (chr '.') then p.qualified .type site.file.path name
  else p.lookup .type site name

/-- What a reference stands for. Other shapes stand for themselves and have no target. -/
def target? (p : Program) : Shape → Except Overflow (Option Shape)
  | .reference name arguments site =>
    match arguments with
    | [argument] =>
      if transparentTypes.contains name then return some argument
      else Shape.ofDeclarations name (p.typeDeclarations name site)
    | [key, value] =>
      if name == txt "Record" then return some (.record key value site)
      else Shape.ofDeclarations name (p.typeDeclarations name site)
    | _ => Shape.ofDeclarations name (p.typeDeclarations name site)
  | _ => return none

end Program

end ParamSchema
