import ParamSchema.Parse.Pattern

/-!
Functions and classes, as expressions and as declarations.
-/

namespace ParamSchema.Parse

open Reader

/-- The word `async` when it stands before something on the same line. -/
def asyncWord : Reader Node := do
  let word ← keyword "async"
  if ← lineBreak then miss else return word

/-- The head of a function up to its body. -/
def functionHead (r : Rules) : Reader (List Node) := do
  let async ← opt asyncWord
  let word ← keyword "function"
  let star ← opt (symbol "*")
  let title ← opt (name .identifier)
  let signature ← callSignature r
  return async.toList ++ [word] ++ star.toList ++ (title.map (·.withRole .name)).toList ++ signature

def functionExpression (r : Rules) : Reader Node := do
  let head ← functionHead r
  let body ← block r
  return .branch .functionExpression (head ++ [body.withRole .body])

/-- A function with a name; without a body it is a mere signature. -/
def functionDeclaration (r : Rules) : Reader Node := do
  let head ← functionHead r
  (do
    let body ← block r
    return .branch .functionDeclaration (head ++ [body.withRole .body])) <|>
  (do
    let mark ← semicolon
    return .branch .functionSignature (head ++ mark))

/-- The rule for a value at the end of an expression that is read by a rule. -/
def tailRule : Rule → Rule
  | .untypedExpression => .untypedExpression
  | _ => .expression

/-- The body of an arrow function. -/
def arrowBody (r : Rules) (rule : Rule) : Reader Node := do
  if (← nextPunctuation) == "\x7b" then block r else r (tailRule rule)

/-- The arrow and the body behind parameters. -/
def arrowRest (r : Rules) (rule : Rule) (front : List Node) : Reader Node := do
  let arrow ← symbol "=>"
  let body ← arrowBody r rule
  return .branch .arrowFunction (front ++ [arrow, body.withRole .body])

/-- The type of the result of an arrow function. An arrow behind a group in it may be the arrow of
the function. -/
def arrowResult (r : Rules) : Reader Node :=
  before "=>" (resultClause r .type) (resultClause r .arrowlessType)

/-- An arrow function with parameters in parentheses. -/
def arrowWithParameters (r : Rules) (rule : Rule) (front : List Node) : Reader Node := do
  let generics ← opt (typeParameters r)
  let items ← parameters r
  let result ← if rule == .untypedExpression then pure none else opt (arrowResult r)
  arrowRest r rule (front ++ generics.toList ++ [items] ++ result.toList)

/-- An arrow function whose only parameter is a name. -/
def arrowWithName (r : Rules) (rule : Rule) (front : List Node) : Reader Node := do
  let parameter ← name .identifier
  arrowRest r rule (front ++ [parameter.withRole .parameter])

/-- A method with its body; `front` are the words and the name before the parameters. -/
def methodRest (r : Rules) (front : List Node) : Reader Node := do
  let signature ← callSignature r
  let body ← block r
  return .branch .methodDefinition (front ++ signature ++ [body.withRole .body])

/-! ### Classes -/

def classModifiers : List String :=
  ["public", "private", "protected", "static", "abstract", "override", "readonly", "declare",
   "async", "accessor", "get", "set"]

/-- The end of a member of a class. -/
def classMemberEnd : Reader (List Node) :=
  (do
    let comma ← symbol ","
    return [comma]) <|> semicolon

/-- A method, a field or a signature of a class. -/
def classMember (r : Rules) (indexSignature : Reader Node) : Reader (List Node) := do
  let decorators ← many (decorator r)
  (do
    let word ← keyword "static"
    let body ← block r
    return decorators ++ [.branch .staticBlock [word, body.withRole .body]]) <|>
  (do
    let words ← many (modifier ["public", "private", "protected", "static", "readonly"])
    let signature ← indexSignature
    let mark ← classMemberEnd
    return decorators ++ words ++ [signature] ++ mark) <|>
  (do
    let words ← many (modifier classModifiers)
    let star ← opt (symbol "*")
    let title ← propertyName r
    let mark ← opt (symbol "?" <|> symbol "!")
    let front := words ++ star.toList ++ [title.withRole .name] ++ mark.toList
    (do
      let method ← methodRest r front
      return decorators ++ [method]) <|>
    (do
      let signature ← callSignature r
      let isAbstract := words.any (·.kind == .token "abstract")
      let finish ← classMemberEnd
      return decorators ++ [.branch (if isAbstract then .abstractMethodSignature
        else .methodSignature) (front ++ signature)] ++ finish) <|>
    (do
      let type ← opt (typeClause r)
      let value ← optList do
        let mark ← symbol "="
        let value ← r .expression
        return [mark, value.withRole .value]
      let finish ← classMemberEnd
      return [.branch .fieldDefinition (decorators ++ front ++ type.toList ++ value)] ++ finish))

def classBody (r : Rules) (indexSignature : Reader Node) : Reader Node := do
  let start ← symbol "\x7b"
  let members ← many ((do
      let mark ← symbol ";"
      return [mark]) <|> classMember r indexSignature)
  let close ← symbol "\x7d"
  return .branch .classBody (start :: members.flatten ++ [close])

/-- What a class extends and implements. -/
def classHeritage (r : Rules) : Reader Node := do
  let bases ← optList do
    let word ← keyword "extends"
    let values ← commaList1 (r .operand)
    let arguments ← opt (typeArguments r)
    return word :: values ++ arguments.toList
  let interfaces ← optList do
    let word ← keyword "implements"
    let types ← commaList1 (r .type)
    return word :: types
  if bases.isEmpty && interfaces.isEmpty then miss
  else return .branch .classHeritage (bases ++ interfaces)

/-- A class, as an expression or a declaration. -/
def classRest (kind : Kind) (r : Rules) (indexSignature : Reader Node) (front : List Node) :
    Reader Node := do
  let word ← keyword "class"
  let title ← opt (nameBut .typeIdentifier ["extends", "implements"])
  let generics ← opt (typeParameters r)
  let heritage ← opt (classHeritage r)
  let body ← classBody r indexSignature
  return .branch kind (front ++ [word] ++ (title.map (·.withRole .name)).toList ++
    generics.toList ++ heritage.toList ++ [body.withRole .body])

end ParamSchema.Parse
