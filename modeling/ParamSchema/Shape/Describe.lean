import ParamSchema.Double.Arithmetic
import ParamSchema.Double.Printed
import ParamSchema.Shape.Basic

/-!
The shape of a type as its syntax gives it. Unions and intersections that the grammar nests without
parentheses are flattened.
-/

namespace ParamSchema

namespace SourceFile

/-- The number that a literal denotes. -/
def numberOf? (file : SourceFile) (n : Node) : Except Overflow (Option Double) :=
  Numeral.literal? (file.textOf n)

/-- The number under a minus sign. -/
def negatedNumber? (file : SourceFile) (n : Node) : Except Overflow (Option Double) :=
  match n.child? .argument with
  | some operand =>
    if operand.kind == .number && file.textOf? (n.child? .operator) == txt "-" then
      return (← file.numberOf? operand).map Double.neg
    else return none
  | none => return none

/-- The shape of a literal type. -/
def literalShape (file : SourceFile) (n : Node) : Except Overflow Shape := do
  let written := Shape.verbatim (file.textOf n)
  let numeric (x? : Option Double) : Shape := (x?.map (Shape.literal ∘ .number)).getD written
  match n.children.find? Node.isNamed with
  | none => return written
  | some inner =>
    match inner.kind with
    | .string => return .literal (.text (← file.stringValue inner))
    | .number => return numeric (← file.numberOf? inner)
    | .trueLiteral => return .literal (.boolean true)
    | .falseLiteral => return .literal (.boolean false)
    | .nullLiteral => return .primitive (txt "null")
    | .undefinedLiteral => return .primitive (txt "undefined")
    | .unaryExpression => return numeric (← file.negatedNumber? inner)
    | _ => return written

mutual

/-- The shape of the type that the node of a place writes. -/
def shapeAt (file : SourceFile) (place : Place) : Node → Except Overflow Shape
  | .mk kind role start stop line children =>
    let n : Node := .mk kind role start stop line children
    match kind with
    | .typeClause => firstShape file place [] children
    | .parenthesizedType => firstShape file place [] children
    | .predefinedType => return .primitive (Text.trim (file.textOf n))
    | .nullLiteral => return .primitive (txt "null")
    | .undefinedLiteral => return .primitive (txt "undefined")
    | .literalType => file.literalShape n
    | .unionType => return .union (← memberShapes file (some .unionType) place [] children)
    | .intersectionType =>
      return .intersection (← memberShapes file (some .intersectionType) place [] children)
        ⟨file, place⟩
    | .objectType => return .object ⟨file, place⟩
    | .typeIdentifier => return .reference (file.textOf n) [] ⟨file, place⟩
    | .nestedTypeIdentifier => return .reference (file.textOf n) [] ⟨file, place⟩
    | .genericType =>
      return .reference (file.textOf? (n.child? .name)) (← argumentShapes file place [] children)
        ⟨file, place⟩
    | _ => return .verbatim (file.textOf n)

/-- The shape of the first part that is neither a token nor a comment. -/
def firstShape (file : SourceFile) (parent : Place) (before : List Node) :
    List Node → Except Overflow Shape
  | [] => return .any
  | n :: rest =>
    if n.isNamed && !n.isComment then shapeAt file (.part parent before n) n
    else firstShape file parent (n :: before) rest

/-- The shapes of all parts that are neither tokens nor comments; parts of the kind `flat` give
way to their own parts. -/
def memberShapes (file : SourceFile) (flat : Option Kind) (parent : Place) (before : List Node) :
    List Node → Except Overflow (List Shape)
  | [] => return []
  | .mk kind role start stop line children :: rest => do
    let n : Node := .mk kind role start stop line children
    let place := Place.part parent before n
    let first ←
      if !n.isNamed || n.isComment then pure []
      else if some kind == flat then memberShapes file flat place [] children
      else List.singleton <$> shapeAt file place (.mk kind role start stop line children)
    return first ++ (← memberShapes file flat parent (n :: before) rest)

/-- The shapes of the arguments of a generic type. -/
def argumentShapes (file : SourceFile) (parent : Place) (before : List Node) :
    List Node → Except Overflow (List Shape)
  | [] => return []
  | .mk kind role start stop line children :: rest =>
    let n : Node := .mk kind role start stop line children
    if role == some .typeArguments then memberShapes file none (.part parent before n) [] children
    else argumentShapes file parent (n :: before) rest

end

/-- The name of a property: the value of a string, the digits of a number, or the text itself. -/
def propertyName (file : SourceFile) : Option Node → Except Overflow Text
  | none => return []
  | some n =>
    match n.kind with
    | .string => file.stringValue n
    | .number => return ((← file.numberOf? n).map Double.text).getD (file.textOf n)
    | _ => return file.textOf n

end SourceFile

namespace Site

/-- The shape of the type that is written at a site. -/
def shape (s : Site) : Except Overflow Shape := s.file.shapeAt s.place s.node

/-- The shape of the type at a site, if there is one; what has no type written may be anything. -/
def shape? : Option Site → Except Overflow Shape
  | some s => s.shape
  | none => return .any

end Site

end ParamSchema
