import ParamSchema.Parse.Literal

/-!
The grammar's points of recursion, and the parts that several rules share: names of properties,
modifiers, automatic semicolons and a look at what follows a bracketed group.
-/

namespace ParamSchema.Parse

/-- What may be nested in something else. -/
inductive Rule where
  /-- An expression without a comma outside brackets. -/
  | expression
  /-- The same, without the operator `in`. -/
  | headExpression
  /-- The same, where a colon behind a group begins no type of a result. -/
  | untypedExpression
  /-- Expressions with commas between them. -/
  | sequence
  /-- An expression without operators before or behind it. -/
  | operand
  | type
  /-- The same, where an arrow behind a group makes no type of a function. -/
  | arrowlessType
  | pattern
  | statement
  | markup
  deriving DecidableEq, Repr

/-- A reader for everything that may be nested. -/
abbrev Rules := Rule → Reader Node

/-! ### What follows a group -/

/-- What is open while a group is skipped, innermost first: the closing bracket that is awaited, a
quote, a line feed for a comment up to the end of the line, a star for a block comment, and a
backslash when the next character does not count. -/
abbrev Pending := List Char

/-- What is open behind one more character `c`, before the rest; none when brackets do not
match. -/
def pendingAfter (c : Char) (rest : List Char) : Pending → Option Pending
  | [] => none
  | '\\' :: outer => some outer
  | '\n' :: outer => some (if isLineEnd c then outer else '\n' :: outer)
  | '*' :: outer =>
    some (if c == '*' && rest.head? == some '/' then '\\' :: outer else '*' :: outer)
  | '\x60' :: outer =>
    if c == '\\' then some ('\\' :: '\x60' :: outer)
    else if c == '\x60' then some outer
    else if c == '$' && rest.head? == some '\x7b' then some ('\\' :: '\x7d' :: '\x60' :: outer)
    else some ('\x60' :: outer)
  | top :: outer =>
    if top == '\x27' || top == '\x22' then
      if c == '\\' then some ('\\' :: top :: outer)
      else if c == top then some outer else some (top :: outer)
    else if c == '(' then some (')' :: top :: outer)
    else if c == '[' then some (']' :: top :: outer)
    else if c == '\x7b' then some ('\x7d' :: top :: outer)
    else if c == ')' || c == ']' || c == '\x7d' then if c == top then some outer else none
    else if c == '\x27' || c == '\x22' || c == '\x60' then some (c :: top :: outer)
    else if c == '/' && rest.head? == some '/' then some ('\n' :: top :: outer)
    else if c == '/' && rest.head? == some '*' then some ('\\' :: '*' :: top :: outer)
    else some (top :: outer)

/-- The characters behind a group. -/
def behindGroup? : Pending → List Char → Option (List Char)
  | [], rest => some rest
  | _ :: _, [] => none
  | top :: outer, c :: rest =>
    match pendingAfter c rest (top :: outer) with
    | some pending => behindGroup? pending rest
    | none => none

namespace Reader

/-- The punctuation behind the parenthesised group ahead. -/
def punctuationBehindGroup : Reader String := look fun s =>
  let s := s.toToken
  match s.rest with
  | '(' :: rest =>
    match behindGroup? [')'] rest with
    | some rest => punctuationAt (Input.toToken { s with rest := rest }).rest
    | none => ""
  | _ => ""

/-- Reads by `p`, or else by `q`, what the punctuation `w` has to follow if it is read by `p`. -/
def before (w : String) (p q : Reader Node) : Reader Node :=
  (do
    let value ← p
    if (← nextPunctuation) == w then return value
    else do toToken; miss) <|> q

/-! ### Ends of statements -/

def atEnd : Reader Bool := look fun s => s.toToken.rest.isEmpty

/-- A semicolon, or nothing where a line, a block or the file ends. -/
def semicolon : Reader (List Node) := do
  let mark ← nextPunctuation
  if mark == ";" then
    let token ← symbol ";"
    return [token]
  else if mark == "\x7d" then return []
  else if ← atEnd then return []
  else if ← lineBreak then return []
  else miss

/-! ### Names of properties -/

/-- The name of a property. -/
def propertyName (r : Rules) : Reader Node :=
  string <|> number <|> (do
    let start ← symbol "["
    let value ← r .expression
    let close ← symbol "]"
    return .branch .computedName [start, value, close]) <|> (do
    let mark ← symbol "#"
    let word ← name .privateIdentifier
    return .branch .privateIdentifier [mark, word]) <|>
  name .propertyIdentifier

/-- Punctuation that shows that the word before it is a name and no modifier. -/
def afterName : List String :=
  ["(", ")", ":", "?", "=", ";", ",", "\x7d", "!", "<", "=>", "]"]

/-- A word that modifies what follows it. -/
def modifier (words : List String) : Reader Node := do
  let word ← anyKeyword words
  let mark ← nextPunctuation
  if afterName.contains mark then miss
  else if ← atEnd then miss
  else return word

/-! ### Types inside other things -/

/-- A colon and a type. -/
def typeClause (r : Rules) : Reader Node := do
  let colon ← symbol ":"
  let type ← r .type
  return (Node.branch .typeClause [colon, type]).withRole .type

/-- Types between angle brackets. -/
def typeArguments (r : Rules) : Reader Node := do
  let start ← bracket '<'
  let types ← commaList1 (r .type)
  let comma ← opt (symbol ",")
  let close ← bracket '>'
  return (Node.branch .typeArguments (start :: types ++ comma.toList ++ [close])).withRole
    .typeArguments

/-- A parameter of a generic declaration. -/
def typeParameter (r : Rules) : Reader Node := do
  let words ← many (modifier ["const", "in", "out"])
  let word ← name .typeIdentifier
  let constraint ← optList do
    let mark ← keyword "extends"
    let type ← r .type
    return [mark, type]
  let default ← optList do
    let mark ← symbol "="
    let type ← r .type
    return [mark, type]
  return .branch .typeParameter (words ++ [word.withRole .name] ++ constraint ++ default)

def typeParameters (r : Rules) : Reader Node := do
  let start ← bracket '<'
  let parameters ← commaList (typeParameter r)
  let close ← bracket '>'
  return (Node.branch .typeParameters (start :: parameters ++ [close])).withRole .typeParameters

/-- What follows the colon of a result: a type or a statement about an argument. -/
def resultType (r : Rules) (rule : Rule) : Reader Node :=
  (do
    let asserts ← keyword "asserts"
    let subject ← name .identifier
    if ← lineBreak then miss
    let rest ← optList do
      let is ← keyword "is"
      let type ← r rule
      return [is, type]
    return .branch .typePredicate (asserts :: subject :: rest)) <|>
  (do
    let subject ← name .identifier
    if ← lineBreak then miss
    let is ← keyword "is"
    let type ← r rule
    return .branch .typePredicate [subject, is, type]) <|>
  r rule

/-- A colon and the type of a result. -/
def resultClause (r : Rules) (rule : Rule) : Reader Node := do
  let colon ← symbol ":"
  let type ← resultType r rule
  return (Node.branch .typeClause [colon, type]).withRole .returnType

/-! ### Parameters -/

/-- A decorator in front of a declaration. -/
def decorator (r : Rules) : Reader Node := do
  let mark ← symbol "@"
  let value ← r .operand
  return .branch .decorator [mark, value]

/-- A parameter of a function. -/
def parameter (r : Rules) : Reader Node := do
  let decorators ← many (decorator r)
  let words ← many (modifier ["public", "private", "protected", "override", "readonly"])
  let rest ← opt (symbol "...")
  let target ← r .pattern
  let target := match rest with
    | some dots => Node.branch .restPattern [dots, target]
    | none => target
  let question ← opt (symbol "?")
  let type ← opt (typeClause r)
  let value ← optList do
    let mark ← symbol "="
    let value ← r .expression
    return [mark, value.withRole .value]
  return .branch (if question.isSome then .optionalParameter else .requiredParameter)
    (decorators ++ words ++ [target.withRole .pattern] ++ question.toList ++ type.toList ++ value)

def parameters (r : Rules) : Reader Node := do
  let start ← symbol "("
  let items ← commaList (parameter r)
  let close ← symbol ")"
  return (Node.branch .formalParameters (start :: items ++ [close])).withRole .parameters

/-- Type parameters, parameters and the type of the result. -/
def callSignature (r : Rules) : Reader (List Node) := do
  let generics ← opt (typeParameters r)
  let items ← parameters r
  let result ← opt (resultClause r .type)
  return generics.toList ++ [items] ++ result.toList

/-- Statements between braces. -/
def block (r : Rules) : Reader Node := do
  let start ← symbol "\x7b"
  let statements ← many (r .statement)
  let close ← symbol "\x7d"
  return .branch .statementBlock (start :: statements ++ [close])

end Reader

end ParamSchema.Parse
