import ParamSchema.Defaults
import ParamSchema.Documentation.TypeTag
import ParamSchema.Row

/-!
Declarations of parameters: the calls of the declaring function in a file, with the parameters of
their type argument and the default values of their first argument.
-/

namespace ParamSchema

/-- A call that declares parameters. The type has rows, or a text, or is not given. -/
structure Declaration where
  path : Path
  line : Int
  rows : Option (List Row)
  typeText : Text
  defaults : Table Text Text
  deriving DecidableEq, Repr

/-- A file that does not follow the grammar. -/
structure SyntaxError where
  path : Path
  line : Nat
  deriving DecidableEq, Repr

/-- Why a file has no declarations. -/
inductive ScanError where
  | malformed (error : SyntaxError)
  | overflow (cause : Overflow)
  deriving DecidableEq, Repr

namespace SyntaxError

def message (e : SyntaxError) : Text :=
  txt "Syntax error in " ++ e.path.text ++ txt " near line " ++ Text.ofNat e.line

end SyntaxError

namespace Declaration

/-- The function that declares parameters. -/
def defaultFunction : Text := txt "parseParams"

/-- Whether a node calls a function by its plain name. -/
def isCall (function : Text) (s : Site) : Bool :=
  s.node.kind == .callExpression &&
    (s.child? .function).any fun f => f.node.kind == .identifier && f.text == function

/-- The default value that a member of an object gives to a name. -/
def default? (r : Resolver) (member : Site) : Except Overflow (Option (Text × Text)) := do
  match member.node.kind with
  | .pair =>
    let key ← member.file.propertyName (member.node.child? .key)
    match member.child? .value with
    | some value => return some (key, ← Defaults.value r Defaults.defaultLimit value)
    | none => return some (key, [])
  | .shorthandProperty =>
    return some (member.text, ← Defaults.value r Defaults.defaultLimit member)
  | _ => return none

/-- The default values of a call, when its first argument is an object. -/
def defaultsOf (r : Resolver) (call : Site) : Except Overflow (Table Text Text) := do
  match ((call.child? .arguments).map Site.proper).bind List.head? with
  | some argument =>
    if argument.node.kind == .object then
      return Table.ofList ((← argument.named.mapM (default? r)).filterMap id)
    else return []
  | none => return []

/-- The rows of a type argument. Without a program only a type that is written out has some. -/
def rowsOf (r : Resolver) (type : Site) : Except Overflow (Option (List Row)) := do
  if r.resolvesNames then return Row.expanded? r type
  else if type.node.kind == .objectType then return Row.nonempty (← Row.written r type)
  else return none

/-- The declaration of a call. A call without a type argument gets the type of the nearest tag. -/
def ofCall (r : Resolver) (tags : List TypeTag) (reach : Int) (call : Site) :
    Except Overflow Declaration := do
  let (rows, typeText) ←
    match ((call.child? .typeArguments).map Site.proper).bind List.head? with
    | some type =>
      let rows ← rowsOf r type
      pure (rows, if rows.isSome then [] else type.text)
    | none =>
      let tag := TypeTag.nearest? tags call.line reach
      pure (none, (tag.map (TypeTag.layout ·.type)).getD [])
  return ⟨call.file.path, call.line, rows, typeText, ← defaultsOf r call⟩

/-- The places of a file where the declaring function is called, in source order. -/
def callSites (function : Text) (file : SourceFile) : List Site :=
  file.sites (isCall function)

/-- The declarations of a file, in source order. -/
def scan (r : Resolver) (function : Text) (reach : Int) (file : SourceFile) :
    Except ScanError (List Declaration) :=
  if file.hasErrors then .error (.malformed ⟨file.path, file.errorLine⟩)
  else
    ((callSites function file).mapM (ofCall r (TypeTag.all file.text) reach)).mapError .overflow

end Declaration

end ParamSchema
