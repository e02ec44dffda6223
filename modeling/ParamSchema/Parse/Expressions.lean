import ParamSchema.Parse.Functions
import ParamSchema.Parse.Markup
import ParamSchema.Parse.Types

/-!
Expressions. Operators and operands are read as one flat list first and then grouped by the
precedence of the operators.
-/

namespace ParamSchema.Parse

open Reader

/-- Words that are no names in expressions. -/
def reservedWords : List String :=
  ["break", "case", "catch", "class", "const", "continue", "debugger", "default", "delete", "do",
   "else", "enum", "export", "extends", "finally", "for", "function", "if", "import", "in",
   "instanceof", "new", "return", "super", "switch", "this", "throw", "try", "typeof", "var",
   "void", "while", "with"]

/-! ### Object and array literals -/

/-- A member of an object literal. A value behind an equals sign is only found where the literal
turns out to be a pattern. -/
def objectMember (r : Rules) : Reader Node :=
  (do
    let dots ← symbol "..."
    let value ← r .expression
    return .branch .spreadElement [dots, value]) <|>
  (do
    let key ← propertyName r
    let colon ← symbol ":"
    let value ← r .expression
    return .branch .pair [key.withRole .key, colon, value.withRole .value]) <|>
  (do
    let words ← many (modifier ["async", "get", "set", "static"])
    let star ← opt (symbol "*")
    let title ← propertyName r
    methodRest r (words ++ star.toList ++ [title.withRole .name])) <|>
  (do
    let target ← name .shorthandPattern
    let mark ← symbol "="
    let value ← r .expression
    return .branch .assignmentPattern [target, mark, value.withRole .value]) <|>
  nameBut .shorthandProperty reservedWords

def objectLiteral (r : Rules) : Reader Node := do
  let start ← symbol "\x7b"
  let members ← commaList (objectMember r)
  let close ← symbol "\x7d"
  return .branch .object (start :: members ++ [close])

/-- An expression or a spread list. -/
def element (r : Rules) : Reader Node :=
  (do
    let dots ← symbol "..."
    let value ← r .expression
    return .branch .spreadElement [dots, value]) <|> r .expression

def arrayLiteral (r : Rules) : Reader Node := do
  let start ← symbol "["
  let items ← many (symbol "," <|> element r)
  let close ← symbol "]"
  return .branch .array (start :: items ++ [close])

def arguments (r : Rules) : Reader Node := do
  let start ← symbol "("
  let items ← commaList (element r)
  let close ← symbol ")"
  return (Node.branch .arguments (start :: items ++ [close])).withRole .arguments

/-! ### Primary expressions -/

def parenthesized (r : Rules) : Reader Node := do
  let start ← symbol "("
  let value ← r .sequence
  let type ← opt (typeClause r)
  let close ← symbol ")"
  return .branch .parenthesizedExpression ([start, value] ++ type.toList ++ [close])

/-- An import used in an expression: a call or the description of the module. -/
def importExpression : Reader Node := do
  let word ← keyword "import"
  match ← nextPunctuation with
  | "(" => return word.withKind .importCallee
  | "." => do
    let point ← symbol "."
    let property ← keyword "meta"
    return .branch .metaProperty [word, point, property]
  | _ => miss

def classExpression (r : Rules) : Reader Node := do
  let decorators ← many (decorator r)
  classRest .classExpression r (indexSignature r) decorators

/-- A primary expression that begins with a word. -/
def wordExpression (r : Rules) : Reader Node := do
  match ← nextName with
  | "function" => functionExpression r
  | "async" => functionExpression r <|> name .identifier
  | "class" => classExpression r
  | "this" => name .thisExpression
  | "super" => name .superExpression
  | "true" => name .trueLiteral
  | "false" => name .falseLiteral
  | "null" => name .nullLiteral
  | "undefined" => name .undefinedLiteral
  | "import" => importExpression
  | _ => nameBut .identifier reservedWords

/-- A primary expression. -/
def primary (r : Rules) : Reader Node := do
  match ← next with
  | [] => do toToken; miss
  | c :: _ =>
    if c == '(' then parenthesized r
    else if c == '[' then arrayLiteral r
    else if c == '\x7b' then objectLiteral r
    else if c == '\x27' || c == '\x22' then string
    else if c == '\x60' then template .template (r .sequence)
    else if c.isDigit || c == '.' then number
    else if c == '/' then regex
    else if c == '@' then classExpression r
    else if c == '#' then do
      let mark ← symbol "#"
      let word ← name .privateIdentifier
      return .branch .privateIdentifier [mark, word]
    else if c == '<' then do
      if (← look (·.dialect)) == .markup then r .markup else do toToken; miss
    else wordExpression r

/-! ### Members and calls -/

/-- The name behind a point. -/
def memberName : Reader Node :=
  (do
    let mark ← symbol "#"
    let word ← name .privateIdentifier
    return (Node.branch .privateIdentifier [mark, word]).withRole .member) <|>
  (do
    let word ← name .propertyIdentifier
    return word.withRole .member)

def indexed (r : Rules) : Reader (List Node) := do
  let start ← symbol "["
  let index ← r .sequence
  let close ← symbol "]"
  return [start, index.withRole .index, close]

/-- A member of an object, as part of the callee of `new` too. -/
def memberStep (r : Rules) (outer : Node) : Reader Node := do
  match ← nextPunctuation with
  | "." => do
    let point ← symbol "."
    let word ← memberName
    return .branch .memberExpression [outer.withRole .object, point, word]
  | "[" => do
    let parts ← indexed r
    return .branch .subscriptExpression (outer.withRole .object :: parts)
  | _ => miss

/-- Punctuation that may follow type arguments that no call follows. -/
def afterTypeArguments : List String :=
  [")", "]", ":", ";", ",", ".", "?.", "==", "===", "!=", "!==", "&&", "||", "??", "^", "&", "|",
   "\x7d", "\x7b", "?"]

/-- Type arguments behind an expression, with the call that they belong to. -/
def genericStep (r : Rules) (outer : Node) : Reader Node := do
  let types ← typeArguments r
  match ← nextPunctuation with
  | "(" => do
    let values ← arguments r
    return .branch .callExpression [outer.withRole .function, types, values]
  | "\x60" => do
    let values ← template .template (r .sequence)
    return .branch .callExpression [outer.withRole .function, types, values.withRole .arguments]
  | mark =>
    let word ← nextName
    if afterTypeArguments.contains mark || ["implements", "as", "satisfies"].contains word ||
        (← atEnd) || (← lineBreak) then
      return .branch .instantiationExpression [outer, types]
    else miss

/-- What may follow the points of an optional chain. -/
def optionalStep (r : Rules) (outer : Node) : Reader Node := do
  let mark ← symbol "?."
  let chain := mark.withKind .optionalChain
  (do
    let types ← opt (typeArguments r)
    let values ← arguments r
    return .branch .callExpression
      ([outer.withRole .function, chain] ++ types.toList ++ [values])) <|>
  (do
    let parts ← indexed r
    return .branch .subscriptExpression (outer.withRole .object :: chain :: parts)) <|>
  (do
    let word ← memberName
    return .branch .memberExpression [outer.withRole .object, chain, word])

/-- Extends an operand by a member, a call or a mark behind it. -/
def operandStep (r : Rules) (outer : Node) : Reader Node := do
  match ← nextPunctuation with
  | "(" => do
    let values ← arguments r
    return .branch .callExpression [outer.withRole .function, values]
  | "\x60" => do
    let values ← template .template (r .sequence)
    return .branch .callExpression [outer.withRole .function, values.withRole .arguments]
  | "?." => optionalStep r outer
  | "!" => do
    if ← lineBreak then miss
    let mark ← symbol "!"
    return .branch .nonNullExpression [outer, mark]
  | "<" => genericStep r outer
  | "<<" => genericStep r outer
  | _ => memberStep r outer

/-- The construction of an object. -/
def newExpression (r : Rules) : Reader Node := do
  let word ← keyword "new"
  if (← nextPunctuation) == "." then do
    let point ← symbol "."
    let target ← name .propertyIdentifier
    return .branch .metaProperty [word, point, target]
  else do
    let first ← if (← nextName) == "new" then r .operand else primary r
    let callee ← extend (memberStep r) first
    let types ← opt (typeArguments r)
    let values ← opt (arguments r)
    return .branch .newExpression
      ([word, callee.withRole .constructor] ++ types.toList ++ values.toList)

/-- An operand with its members and calls. -/
def operandRule (r : Rules) : Reader Node := do
  let first ← if (← nextName) == "new" then newExpression r else primary r
  extend (operandStep r) first

/-! ### Operators -/

/-- A mark before an operand: the kind of node that it makes, and its own nodes. -/
abbrev Front := Kind × Node

/-- A mark before an operand. -/
def front (r : Rules) : Reader Front := do
  let mark ← nextPunctuation
  if mark == "!" || mark == "~" || mark == "+" || mark == "-" then
    return (.unaryExpression, ← symbol mark)
  else if mark == "++" || mark == "--" then return (.updateExpression, ← symbol mark)
  else if mark == "<" && (← look (·.dialect)) == .script then
    return (.typeAssertion, ← typeArguments r)
  else
    let word ← nextName
    if word == "typeof" || word == "void" || word == "delete" then
      return (.unaryExpression, ← keyword word)
    else if word == "await" then return (.awaitExpression, ← keyword word)
    else miss

/-- Applies `wrap` to what is called with type arguments at the head of an operand. Type arguments
are bound loosely: operators before the callee belong to the callee. -/
def wrapGenericCallee (wrap : Node → Node) : Node → Option Node
  | .mk kind role _ stop _ children =>
    match children with
    | [] => none
    | first :: rest =>
      let rebuilt (first : Node) : Node :=
        .mk kind role first.start stop first.line (first :: rest)
      if [Kind.callExpression, .memberExpression, .subscriptExpression, .nonNullExpression].contains
          kind then
        match wrapGenericCallee wrap first, first.role with
        | some first, some inner => some (rebuilt (first.withRole inner))
        | some first, none => some (rebuilt first)
        | none, _ =>
          if kind == .callExpression && rest.head?.any (·.kind == .typeArguments) then
            some (.mk kind role (wrap first).start stop (wrap first).line
              ((wrap first).withRole .function :: rest))
          else none
      else none

/-- Applies an operator to an operand, or to what is called at its head. -/
def applyOperator (wrap : Node → Node) (operand : Node) : Node :=
  (wrapGenericCallee wrap operand).getD (wrap operand)

/-- An operand with the marks before and behind it. -/
def unary (r : Rules) : Reader Node := do
  let fronts ← many (front r)
  let operand ← operandRule r
  let operand ← (do
      if ← lineBreak then miss
      let mark ← symbol "++" <|> symbol "--"
      return .branch .updateExpression
        [operand.withRole .argument, mark.withRole .operator]) <|> pure operand
  return fronts.foldr (fun (kind, mark) operand =>
    if kind == .typeAssertion then .branch kind [mark, operand.withRole .argument]
    else applyOperator (fun operand =>
      .branch kind [mark.withRole .operator, operand.withRole .argument]) operand) operand

/-- How tightly an operator of two operands binds. -/
def precedence? : String → Option Nat
  | "??" => some 1
  | "||" => some 2
  | "&&" => some 3
  | "|" => some 4
  | "^" => some 5
  | "&" => some 6
  | "==" | "!=" | "===" | "!==" => some 7
  | "<" | ">" | "<=" | ">=" | "in" | "instanceof" | "as" | "satisfies" => some 8
  | "<<" | ">>" | ">>>" => some 9
  | "+" | "-" => some 10
  | "*" | "/" | "%" => some 11
  | "**" => some 12
  | _ => none

/-- What follows an operand: an operator with its right operand, or a type that is ascribed to the
left operand. -/
inductive Link where
  | operator (precedence : Nat) (mark operand : Node)
  | ascribed (kind : Kind) (parts : List Node)

/-- An operator and its right operand. -/
def operatorLink (r : Rules) (allowIn : Bool) : Reader Link := do
  let word ← nextName
  let mark ← nextPunctuation
  if word == "as" || word == "satisfies" then
    if ← lineBreak then miss
    let mark ← keyword word
    let type ← keyword "const" <|> r .type
    return .ascribed (if word == "as" then .asExpression else .satisfiesExpression) [mark, type]
  else if word == "instanceof" || (word == "in" && allowIn) then
    let mark ← keyword word
    return .operator 8 mark (← unary r)
  else
    match precedence? mark with
    | some precedence =>
      let token ← symbol mark
      return .operator precedence token (← unary r)
    | none => miss

/-- An operand whose right operand is still open. -/
structure OpenOperator where
  precedence : Nat
  left : Node
  mark : Node

def binary (left mark right : Node) : Node :=
  .branch .binaryExpression
    [left.withRole .left, mark.withRole .operator, right.withRole .right]

/-- Closes the operators that bind at least as tightly as `precedence`. The tightest operator of
all takes its right side first. -/
def close (precedence : Nat) : List OpenOperator → Node → List OpenOperator × Node
  | [], right => ([], right)
  | top :: outer, right =>
    if precedence < top.precedence || (precedence == top.precedence && precedence != 12) then
      close precedence outer
        (if top.precedence < 9 then binary top.left top.mark right
         else applyOperator (binary top.left top.mark) right)
    else (top :: outer, right)

/-- Groups operands and operators. -/
def group : List OpenOperator → Node → List Link → Node
  | opened, last, [] => (close 0 opened last).2
  | opened, last, .operator precedence mark operand :: links =>
    let (outer, left) := close precedence opened last
    group (⟨precedence, left, mark⟩ :: outer) operand links
  | opened, last, .ascribed kind parts :: links =>
    let (outer, left) := close 8 opened last
    group outer (.branch kind (left :: parts)) links

/-- Operands with operators between them. -/
def operation (r : Rules) (allowIn : Bool) : Reader Node := do
  let first ← unary r
  let links ← many (operatorLink r allowIn)
  return group [] first links

/-- The first expression of a choice. A colon behind a group in it may be the colon of the
choice. -/
def consequence (r : Rules) (rule : Rule) : Reader Node :=
  if rule == .untypedExpression then r rule
  else before ":" (r .expression) (r .untypedExpression)

/-- A choice between two expressions. -/
def ternary (r : Rules) (rule : Rule) : Reader Node := do
  let condition ← operation r (rule != .headExpression)
  (do
    let question ← symbol "?"
    let positive ← consequence r rule
    let colon ← symbol ":"
    let negative ← r rule
    return .branch .ternaryExpression [condition.withRole .condition, question,
      positive.withRole .consequence, colon, negative.withRole .alternative]) <|>
  pure condition

def assignmentMarks : List String :=
  ["+=", "-=", "*=", "/=", "%=", "**=", "<<=", ">>=", ">>>=", "&=", "|=", "^=", "&&=", "||=",
   "??="]

/-- An expression with an assignment, if there is one. -/
def assignment (r : Rules) (rule : Rule) : Reader Node := do
  let left ← ternary r rule
  let right := r rule
  let mark ← nextPunctuation
  if mark == "=" then
    (do
      let token ← symbol "="
      let value ← right
      return .branch .assignmentExpression
        [(asPattern left).withRole .left, token, value.withRole .right]) <|> pure left
  else if assignmentMarks.contains mark then
    (do
      let token ← symbol mark
      let value ← right
      return .branch .augmentedAssignment
        [left.withRole .left, token, value.withRole .right]) <|> pure left
  else return left

/-- The word `yield` and what it hands out. -/
def yieldExpression (r : Rules) (rule : Rule) : Reader Node := do
  let word ← keyword "yield"
  let star ← opt (symbol "*")
  let value ← if ← lineBreak then pure none else opt (r (tailRule rule))
  return .branch .yieldExpression (word :: star.toList ++ value.toList)

/-- An arrow function, if there is one ahead. -/
def arrowFunction (r : Rules) (rule : Rule) : Reader Node := do
  let async ← opt do
    let word ← asyncWord
    let mark ← nextPunctuation
    let following ← nextName
    if mark == "(" || mark == "<" || following != "" then return word else miss
  match ← nextPunctuation with
  | "(" => do
    let mark ← punctuationBehindGroup
    if mark == "=>" || (mark == ":" && rule != .untypedExpression) then
      arrowWithParameters r rule async.toList
    else do toToken; miss
  | "<" => arrowWithParameters r rule async.toList
  | _ => do
    let word ← nextName
    if word == "" || reservedWords.contains word then do toToken; miss
    else arrowWithName r rule async.toList

/-- An expression. Where angle brackets begin markup, they are read so before a generic function is
tried. -/
def expressionRule (r : Rules) (rule : Rule) : Reader Node := do
  let mark ← nextPunctuation
  if mark == "<" && (← look (·.dialect)) == .markup then
    assignment r rule <|> arrowFunction r rule
  else if (← nextName) == "yield" then yieldExpression r rule <|> assignment r rule
  else arrowFunction r rule <|> assignment r rule

/-- Expressions with commas between them. -/
def sequenceRule (r : Rules) : Reader Node := do
  let parts ← commaList1 (r .expression)
  match parts with
  | [single] => return single
  | _ => return .branch .sequenceExpression parts

end ParamSchema.Parse
