import ParamSchema.Parse.Rules

/-!
Types. Intersections bind tighter than unions, unions tighter than conditional types; both nest to
the left, and a leading bar makes a union of its own.
-/

namespace ParamSchema.Parse

open Reader

/-! ### Members of object types -/

/-- The type of an index signature; mapped members may add or drop optionality. -/
def indexClause (r : Rules) : Reader Node := do
  let sign ← opt (symbol "-" <|> symbol "+")
  let question ← opt (symbol "?")
  let colon ← symbol ":"
  let type ← r .type
  return (Node.branch .typeClause (sign.toList ++ question.toList ++ [colon, type])).withRole
    .type

/-- An index signature or a mapped member. -/
def indexSignature (r : Rules) : Reader Node := do
  let words ← optList do
    let sign ← opt (symbol "-" <|> symbol "+")
    let word ← keyword "readonly"
    return sign.toList ++ [word]
  let start ← symbol "["
  let inside ← (do
      let key ← name .identifier
      let colon ← symbol ":"
      let type ← r .type
      return [key.withRole .name, colon, type.withRole .indexType]) <|>
    (do
      let key ← name .typeIdentifier
      let word ← keyword "in"
      let type ← r .type
      let rename ← optList do
        let mark ← keyword "as"
        let type ← r .type
        return [mark, type.withRole .newName]
      return [.branch .mappedTypeClause ([key.withRole .name, word, type] ++ rename)])
  let close ← symbol "]"
  let type ← opt (indexClause r)
  return .branch .indexSignature (words ++ [start] ++ inside ++ [close] ++ type.toList)

/-- A signature of a call or of a construction. -/
def callMember (r : Rules) : Reader Node :=
  (do
    let word ← keyword "new"
    let parts ← callSignature r
    return .branch .constructSignature (word :: parts)) <|>
  (do
    let parts ← callSignature r
    return .branch .callSignature parts)

/-- A property or a method of an object type. -/
def namedMember (r : Rules) : Reader Node := do
  let words ← many (modifier
    ["public", "private", "protected", "static", "override", "readonly", "async", "get", "set"])
  let star ← opt (symbol "*")
  let key ← propertyName r
  let question ← opt (symbol "?")
  let front := words ++ star.toList ++ [key.withRole .name] ++ question.toList
  (do
    let parts ← callSignature r
    return .branch .methodSignature (front ++ parts)) <|>
  (do
    let type ← opt (typeClause r)
    return .branch .propertySignature (front ++ type.toList))

/-- The mark behind a member; at the end of a line or of the body there may be none. -/
def memberEnd : Reader (List Node) :=
  (do
    let mark ← symbol "," <|> symbol ";"
    return [mark]) <|> semicolon

/-- Members between braces. -/
def objectType (kind : Kind) (r : Rules) : Reader Node := do
  let start ← symbol "\x7b"
  let first ← opt (symbol "," <|> symbol ";")
  let members ← many do
    let member ← indexSignature r <|> callMember r <|> namedMember r
    let mark ← memberEnd
    return member :: mark
  let close ← symbol "\x7d"
  return .branch kind (start :: first.toList ++ members.flatten ++ [close])

/-! ### Single types -/

def predefinedTypes : List String :=
  ["any", "number", "boolean", "string", "symbol", "void", "unknown", "never", "object"]

/-- Words that begin no name of a type. -/
def typeWords : List String :=
  ["new", "typeof", "keyof", "readonly", "infer", "unique", "import", "true", "false", "null",
   "undefined", "this", "extends", "in", "function", "class", "const", "let", "var", "return",
   "if", "else", "export", "case", "default"]

/-- A name with points in it, read as the names of modules before the last point. -/
def qualified (first : Node) : Reader Node := extend (fun outer => do
  let point ← symbol "."
  let last ← name .typeIdentifier
  let outer := outer.withKind
    (if outer.kind == .typeIdentifier then .identifier else .nestedIdentifier)
  return .branch .nestedTypeIdentifier [outer, point, last.withRole .name]) first

/-- A named type, maybe with arguments. -/
def namedType (r : Rules) : Reader Node := do
  let first ← nameBut .typeIdentifier typeWords
  let whole ← qualified first
  (do
    let arguments ← typeArguments r
    return .branch .genericType [whole.withRole .name, arguments]) <|> pure whole

/-- A type that is a single word of the language. -/
def predefinedType : Reader Node := do
  let word ← nextName
  if predefinedTypes.contains word then name .predefinedType
  else do
    let unique ← keyword "unique"
    let symbol ← keyword "symbol"
    return .branch .predefinedType [unique, symbol]

/-- A literal as a type. -/
def literalType : Reader Node := do
  let inner ← string <|> number <|> (do
      let sign ← symbol "-" <|> symbol "+"
      let value ← number
      return .branch .unaryExpression [sign.withRole .operator, value.withRole .argument]) <|> (do
      match ← nextName with
      | "true" => name .trueLiteral
      | "false" => name .falseLiteral
      | "null" => name .nullLiteral
      | "undefined" => name .undefinedLiteral
      | _ => miss)
  return .branch .literalType [inner]

/-- The call of an import as a type or inside a type. -/
def importType (r : Rules) : Reader Node := do
  let word ← keyword "import"
  let start ← symbol "("
  let items ← commaList (r .expression)
  let close ← symbol ")"
  let arguments := Node.branch .arguments (start :: items ++ [close])
  return .branch .callExpression
    [(word.withKind .importCallee).withRole .function, arguments.withRole .arguments]

/-- Names behind points. -/
def members (first : Node) : Reader Node := extend (fun outer => do
  let point ← symbol "."
  let last ← symbol "#" <|> name .propertyIdentifier
  return .branch .memberExpression [outer.withRole .object, point, last.withRole .member]) first

/-- The type of a value. -/
def typeQuery (r : Rules) : Reader Node := do
  let word ← keyword "typeof"
  let subject ← importType r <|> name .identifier
  let subject ← members subject
  let arguments ← opt (typeArguments r)
  return .branch .typeQuery (word :: subject :: arguments.toList)

/-- A member of a tuple type. -/
def tupleMember (r : Rules) : Reader Node := do
  let dots ← opt (symbol "...")
  (do
    let word ← name .identifier
    let question ← opt (symbol "?")
    let type ← typeClause r
    return .branch .tupleMember (dots.toList ++ [word] ++ question.toList ++ [type])) <|>
  (do
    let type ← r .type
    match dots with
    | some dots => return .branch .restType [dots, type]
    | none =>
      (do
        let question ← symbol "?"
        return .branch .optionalType [type, question]) <|> pure type)

def tupleType (r : Rules) : Reader Node := do
  let start ← symbol "["
  let items ← commaList (tupleMember r)
  let close ← symbol "]"
  return .branch .tupleType (start :: items ++ [close])

def parenthesizedType (r : Rules) : Reader Node := do
  let start ← symbol "("
  let type ← r .type
  let close ← symbol ")"
  return .branch .parenthesizedType [start, type, close]

/-- The type of a function; the arrow takes all that follows it. -/
def functionType (r : Rules) (rule : Rule) : Reader Node := do
  let generics ← opt (typeParameters r)
  let items ← parameters r
  let arrow ← symbol "=>"
  let result ← resultType r rule
  return .branch .functionType (generics.toList ++ [items, arrow, result.withRole .returnType])

def constructorType (r : Rules) (rule : Rule) : Reader Node := do
  let abstract ← opt (keyword "abstract")
  let word ← keyword "new"
  let generics ← opt (typeParameters r)
  let items ← parameters r
  let arrow ← symbol "=>"
  let result ← r rule
  return .branch .constructorType
    (abstract.toList ++ [word] ++ generics.toList ++ [items, arrow, result])

/-- A type before the brackets behind it. -/
def simpleType (r : Rules) : Reader Node := do
  match ← nextPunctuation with
  | "\x7b" => objectType .objectType r
  | "[" => tupleType r
  | "(" => parenthesizedType r
  | "\x60" => template .templateLiteralType (r .type)
  | _ =>
    match ← nextName with
    | "typeof" => typeQuery r
    | "this" => name .thisType
    | "const" => keyword "const"
    | "import" => do
      let call ← importType r
      members call
    | _ => literalType <|> predefinedType <|> namedType r

/-- Brackets behind a type. -/
def bracketed (r : Rules) (type : Node) : Reader Node := extend (fun type => do
  let start ← symbol "["
  (do
    let close ← symbol "]"
    return .branch .arrayType [type, start, close]) <|>
  (do
    let index ← r .type
    let close ← symbol "]"
    return .branch .lookupType [type, start, index, close])) type

/-- A variable that a conditional type determines. -/
def inferType (r : Rules) : Reader Node := do
  let word ← keyword "infer"
  let unknown ← name .typeIdentifier
  let constraint ← optList do
    let mark ← keyword "extends"
    let type ← r .type
    if (← nextPunctuation) == "?" then miss else return [mark, type]
  return .branch .inferType (word :: unknown :: constraint)

/-- An operand of an intersection. A group before an arrow is a list of parameters, if it can be
read so and the rule allows it. -/
def typeOperand (r : Rules) (rule : Rule) : Reader Node := do
  match ← nextName with
  | "keyof" => do
    let words ← many (keyword "keyof")
    let type ← simpleType r
    let type ← bracketed r type
    return words.foldr (fun word type => .branch .keyofType [word, type]) type
  | "readonly" => do
    let word ← keyword "readonly"
    let type ← r rule
    return .branch .readonlyType [word, type]
  | "infer" => inferType r
  | "new" => constructorType r rule
  | "abstract" => constructorType r rule <|> (do bracketed r (← namedType r))
  | _ =>
    match ← nextPunctuation with
    | "<" => functionType r rule
    | "(" =>
      if (← punctuationBehindGroup) == "=>" && rule == .type then
        functionType r rule <|> (do bracketed r (← simpleType r))
      else do bracketed r (← simpleType r)
    | _ => do bracketed r (← simpleType r)

/-- Operands with the mark between them, nesting to the left; the mark may also come first. -/
def chain (kind : Kind) (mark : String) (operand : Reader Node) : Reader Node := do
  let leading ← opt (symbol mark)
  let first ← operand
  let first := match leading with
    | some token => Node.branch kind [token, first]
    | none => first
  extend (fun left => do
    let token ← symbol mark
    let right ← operand
    return .branch kind [left, token, right]) first

def unionType (r : Rules) (rule : Rule) : Reader Node :=
  chain .unionType "|" (chain .intersectionType "&" (typeOperand r rule))

/-- A type. -/
def typeRule (r : Rules) (rule : Rule) : Reader Node := do
  let left ← unionType r rule
  (do
    if ← lineBreak then miss
    let word ← keyword "extends"
    let right ← unionType r .type
    let question ← symbol "?"
    let positive ← r .type
    let colon ← symbol ":"
    let negative ← r rule
    return .branch .conditionalType [left, word, right, question, positive, colon, negative]) <|>
  pure left

end ParamSchema.Parse
