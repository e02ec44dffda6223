import ParamSchema.Program.Lookup
import ParamSchema.Shape.Describe

/-!
Variables: the initializer of the variable that an identifier refers to, and the type that is known
of it without evaluation.
-/

namespace ParamSchema

namespace SourceFile

/-- A text between double quotes. -/
def quotedText (t : Text) : Text :=
  let t := Text.replace (chr '\x22') (txt "\\\"") (Text.replace (chr '\\') (txt "\\\\") t)
  [chr '\x22'] ++ t ++ [chr '\x22']

/-- The text of the type of a literal. -/
def literalText? (file : SourceFile) (n : Node) : Except Overflow (Option Text) :=
  match n.kind with
  | .string => return some (quotedText (← file.stringValue n))
  | .number => return (← file.numberOf? n).map Double.text
  | .trueLiteral => return some (txt "true")
  | .falseLiteral => return some (txt "false")
  | .unaryExpression => return (← file.negatedNumber? n).map Double.text
  | _ => return none

/-- The wider type that a variable has when it may be assigned again. -/
def widened (literal : Text) : Text :=
  if Text.startsWith literal (txt "\"") then txt "string"
  else if literal == txt "true" || literal == txt "false" then txt "boolean"
  else txt "number"

end SourceFile

namespace Site

/-- Whether a declarator belongs to a declaration with `const`. -/
def isConstant (declarator : Site) : Bool :=
  match declarator.place.parent? with
  | some parent => parent.node.hasToken "const"
  | none => false

/-- The type of a declared variable: as annotated, else that of a literal initializer. -/
def variableType? (declarator : Site) : Except Overflow (Option Text) := do
  match declarator.child? .type with
  | some written => return some (Text.trim (written.text.dropWhile (· == chr ':')))
  | none =>
    match declarator.node.child? .value with
    | none => return some (txt "any")
    | some value =>
      return (← declarator.file.literalText? value).map fun literal =>
        if declarator.isConstant then literal else SourceFile.widened literal

end Site

namespace Program

/-- The declaration of the variable that an identifier refers to. -/
def declarator? (p : Program) (identifier : Site) : Option Site :=
  (p.lookup .value identifier identifier.text).head?

/-- The initializer of the variable that an identifier refers to. -/
def initializer? (p : Program) (identifier : Site) : Option Site :=
  (p.declarator? identifier).bind (·.child? .value)

/-- The type of an identifier as far as it is known; an unknown name may be anything. -/
def identifierType? (p : Program) (identifier : Site) : Except Overflow (Option Text) :=
  match p.declarator? identifier with
  | none => return some (txt "any")
  | some declarator => declarator.variableType?

end Program

end ParamSchema
