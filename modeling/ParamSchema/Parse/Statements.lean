import ParamSchema.Parse.Expressions

/-!
Statements and declarations.
-/

namespace ParamSchema.Parse

open Reader

/-! ### Modules -/

/-- The word `from` and the module that it names. -/
def fromClause : Reader (List Node) := do
  let word ← keyword "from"
  let source ← string
  return [word, source.withRole .source]

/-- Attributes of an imported module. -/
def importAttributes (r : Rules) : Reader Node := do
  let word ← keyword "with" <|> keyword "assert"
  let value ← objectLiteral r
  return .branch .importAttribute [word, value]

/-- The name of something that a module exports. -/
def exportedName : Reader Node := string <|> name .identifier

/-- One of the names in the braces of an import or export: a name, and maybe another name for
it. -/
def specifier (kind : Kind) : Reader Node :=
  (do
    let word ← keyword "type" <|> keyword "typeof"
    let first ← exportedName
    let second ← optList do
      let as ← keyword "as"
      let other ← exportedName
      return [as, other.withRole .newName]
    let mark ← nextPunctuation
    if mark == "," || mark == "\x7d" then
      return .branch kind ([word, first.withRole .name] ++ second)
    else miss) <|>
  (do
    let first ← exportedName
    let second ← optList do
      let as ← keyword "as"
      let other ← exportedName
      return [as, other.withRole .newName]
    return .branch kind (first.withRole .name :: second))

/-- Names in braces. -/
def specifiers (kind item : Kind) : Reader Node := do
  let start ← symbol "\x7b"
  let items ← commaList (specifier item)
  let close ← symbol "\x7d"
  return .branch kind (start :: items ++ [close])

def namespaceImport : Reader Node := do
  let star ← symbol "*"
  let word ← keyword "as"
  let title ← name .identifier
  return .branch .namespaceImport [star, word, title]

/-- What an import binds. -/
def importClause : Reader Node := do
  let rest := namespaceImport <|> specifiers .namedImports .importSpecifier
  (do
    let title ← name .identifier
    let more ← optList do
      let comma ← symbol ","
      let part ← rest
      return [comma, part]
    return .branch .importClause (title :: more)) <|>
  (do
    let part ← rest
    return .branch .importClause [part])

/-- The import of a module by a call. -/
def importRequire : Reader Node := do
  let title ← name .identifier
  let mark ← symbol "="
  let word ← keyword "require"
  let start ← symbol "("
  let source ← string
  let close ← symbol ")"
  return .branch .importRequireClause [title, mark, word, start, source.withRole .source, close]

/-- A short name for a part of a namespace. -/
def importAlias (word : Node) : Reader Node := do
  let title ← name .identifier
  let mark ← symbol "="
  let target ← nameBut .typeIdentifier []
  let target ← qualified target
  let finish ← semicolon
  return .branch .importAlias ([word, title, mark, target] ++ finish)

def importStatement (r : Rules) : Reader Node := do
  let word ← keyword "import"
  let rest (kindWord : List Node) : Reader Node := do
    let parts ← (do
        let clause ← importClause
        let source ← fromClause
        return clause :: source) <|> (do
        let clause ← importRequire
        return [clause])
    let attributes ← opt (importAttributes r)
    let finish ← semicolon
    return .branch .importStatement ([word] ++ kindWord ++ parts ++ attributes.toList ++ finish)
  (do
    let source ← string
    let attributes ← opt (importAttributes r)
    let finish ← semicolon
    return .branch .importStatement
      ([word, source.withRole .source] ++ attributes.toList ++ finish)) <|>
  (do
    let kindWord ← keyword "type" <|> keyword "typeof"
    rest [kindWord]) <|>
  rest [] <|> importAlias word

/-- All exports of another module, or those under one name. -/
def starExport : Reader (List Node) := do
  let star ← symbol "*"
  (do
    let word ← keyword "as"
    let title ← exportedName
    let source ← fromClause
    return .branch .namespaceExport [star, word, title] :: source) <|>
  (do
    let source ← fromClause
    return star :: source)

/-- Names that are exported, of this module or of another. -/
def namedExport : Reader (List Node) := do
  let clause ← specifiers .exportClause .exportSpecifier
  let source ← optList fromClause
  return clause :: source

/-- Words that begin a declaration. -/
def declarationWords : List String :=
  ["const", "let", "var", "function", "async", "class", "abstract", "interface", "enum", "type",
   "namespace", "module", "declare"]

/-- What is exported as the default: a declaration or a value. -/
def defaultExport (r : Rules) : Reader (List Node) := do
  let word ← keyword "default"
  let following ← nextName
  (do
    if ["function", "async", "class", "abstract", "interface", "enum"].contains following then
      let declaration ← r .statement
      if declaration.kind == .expressionStatement then miss
      else return [word, declaration.withRole .declaration]
    else miss) <|>
  (do
    let value ← r .expression
    let finish ← semicolon
    return [word, value.withRole .value] ++ finish)

def exportStatement (r : Rules) : Reader Node := do
  let decorators ← many (decorator r)
  let word ← keyword "export"
  let finished (p : Reader (List Node)) : Reader (List Node) := do
    let parts ← p
    let attributes ← opt (importAttributes r)
    let finish ← semicolon
    return parts ++ attributes.toList ++ finish
  let parts ← finished starExport <|> finished namedExport <|>
    (do
      let kindWord ← keyword "type"
      let rest ← finished (namedExport <|> starExport)
      return kindWord :: rest) <|>
    defaultExport r <|>
    (do
      let mark ← symbol "="
      let value ← r .expression
      let finish ← semicolon
      return [mark, value] ++ finish) <|>
    (do
      let first ← keyword "as"
      let second ← keyword "namespace"
      let title ← name .identifier
      let finish ← semicolon
      return [first, second, title] ++ finish) <|>
    (do
      let inner ← keyword "import"
      let short ← importAlias inner
      return [short]) <|>
    (do
      if declarationWords.contains (← nextName) || (← nextPunctuation) == "@" then
        let declaration ← r .statement
        if declaration.kind == .expressionStatement then miss
        else return [declaration.withRole .declaration]
      else miss)
  return .branch .exportStatement (decorators ++ [word] ++ parts)

/-! ### Declarations -/

/-- One of the variables of a declaration. -/
def declarator (r : Rules) (value : Rule) : Reader Node := do
  let target ← r .pattern
  let mark ← opt (symbol "!")
  let type ← opt (typeClause r)
  let value ← optList do
    let mark ← symbol "="
    let value ← r value
    return [mark, value.withRole .value]
  return .branch .variableDeclarator
    ([target.withRole .name] ++ mark.toList ++ type.toList ++ value)

/-- Variables with the word that declares them. -/
def variableList (r : Rules) (value : Rule) : Reader (Kind × List Node) := do
  let word ← keyword "const" <|> keyword "let" <|> keyword "var"
  let items ← commaList1 (declarator r value)
  let kind := if word.kind == .token "var" then Kind.variableDeclaration else .lexicalDeclaration
  return (kind, word :: items)

def variableStatement (r : Rules) : Reader Node := do
  let (kind, parts) ← variableList r .expression
  let finish ← semicolon
  return .branch kind (parts ++ finish)

def typeAlias (r : Rules) : Reader Node := do
  let word ← keyword "type"
  if ← lineBreak then miss
  let title ← name .typeIdentifier
  let generics ← opt (typeParameters r)
  let mark ← symbol "="
  let value ← r .type
  let finish ← semicolon
  return .branch .typeAlias
    ([word, title.withRole .name] ++ generics.toList ++ [mark, value.withRole .value] ++ finish)

/-- The interfaces that an interface extends. -/
def extendsClause (r : Rules) : Reader Node := do
  let word ← keyword "extends"
  let bases ← commaList1 (namedType r)
  return .branch .extendsTypeClause (word :: bases)

def interfaceDeclaration (r : Rules) : Reader Node := do
  let word ← keyword "interface"
  let title ← name .typeIdentifier
  let generics ← opt (typeParameters r)
  let bases ← opt (extendsClause r)
  let body ← objectType .interfaceBody r
  return .branch .interfaceDeclaration ([word, title.withRole .name] ++ generics.toList ++
    bases.toList ++ [body.withRole .body])

def enumMember (r : Rules) : Reader Node := do
  let title ← propertyName r
  (do
    let mark ← symbol "="
    let value ← r .expression
    return .branch .enumAssignment [title.withRole .name, mark, value.withRole .value]) <|>
  return title.withRole .name

def enumDeclaration (r : Rules) : Reader Node := do
  let const ← opt (keyword "const")
  let word ← keyword "enum"
  let title ← name .identifier
  let start ← symbol "\x7b"
  let members ← commaList (enumMember r)
  let close ← symbol "\x7d"
  let body := Node.branch .enumBody (start :: members ++ [close])
  return .branch .enumDeclaration
    (const.toList ++ [word, title.withRole .name, body.withRole .body])

def classDeclaration (r : Rules) : Reader Node := do
  let decorators ← many (decorator r)
  let abstract ← opt (keyword "abstract")
  classRest .classDeclaration r (indexSignature r) (decorators ++ abstract.toList)

/-- A namespace or a module, maybe without a body. -/
def moduleDeclaration (r : Rules) : Reader Node := do
  let word ← keyword "namespace" <|> keyword "module"
  if ← lineBreak then miss
  let title ← string <|> (do
    let first ← nameBut .typeIdentifier []
    qualified first)
  (do
    let body ← block r
    return .branch .moduleDeclaration [word, title.withRole .name, body.withRole .body]) <|>
  (do
    if title.kind == .string then
      let finish ← semicolon
      return .branch .moduleDeclaration ([word, title.withRole .name] ++ finish)
    else miss)

/-- A declaration of something that exists elsewhere. -/
def ambientDeclaration (r : Rules) : Reader Node := do
  let word ← keyword "declare"
  if ← lineBreak then miss
  (do
    let global ← keyword "global"
    let body ← block r
    return .branch .ambientDeclaration [word, global, body.withRole .body]) <|>
  (do
    if declarationWords.contains (← nextName) || (← nextPunctuation) == "@" then
      let declaration ← r .statement
      if declaration.kind == .expressionStatement then miss
      else return .branch .ambientDeclaration [word, declaration]
    else miss)

/-! ### Other statements -/

def condition (r : Rules) : Reader Node := do
  let start ← symbol "("
  let value ← r .sequence
  let close ← symbol ")"
  return (Node.branch .parenthesizedExpression [start, value, close]).withRole .condition

def ifStatement (r : Rules) : Reader Node := do
  let word ← keyword "if"
  let test ← condition r
  let positive ← r .statement
  let negative ← optList do
    let word ← keyword "else"
    let statement ← r .statement
    return [.branch .elseClause [word, statement]]
  return .branch .ifStatement ([word, test, positive.withRole .consequence] ++ negative)

/-- The head of a loop over the members of something. -/
def overHead (r : Rules) : Reader (List Node) := do
  let left ← (do
      let word ← keyword "const" <|> keyword "let" <|> keyword "var"
      let target ← r .pattern
      return [word, target.withRole .left]) <|>
    (do
      let target ← r .operand
      return [(asPattern target).withRole .left])
  let mark ← keyword "of" <|> keyword "in"
  let right ← r .sequence
  return left ++ [mark.withRole .operator, right.withRole .right]

/-- The head of a counting loop. -/
def countHead (r : Rules) : Reader (List Node) := do
  let first ← (do
      let (kind, parts) ← variableList r .headExpression
      let mark ← symbol ";"
      return [.branch kind (parts ++ [mark])]) <|>
    (do
      let value ← opt (commaList1 (r .headExpression))
      let mark ← symbol ";"
      return (value.getD []) ++ [mark])
  let test ← opt (r .sequence)
  let mark ← symbol ";"
  let step ← opt (r .sequence)
  return first ++ test.toList ++ [mark] ++ step.toList

def forStatement (r : Rules) : Reader Node := do
  let word ← keyword "for"
  let await ← opt (keyword "await")
  let start ← symbol "("
  let (kind, head) ← (do
      let head ← overHead r
      let close ← symbol ")"
      return (Kind.forInStatement, head ++ [close])) <|>
    (do
      let head ← countHead r
      let close ← symbol ")"
      return (Kind.forStatement, head ++ [close]))
  let body ← r .statement
  return .branch kind ([word] ++ await.toList ++ [start] ++ head ++ [body.withRole .body])

def whileStatement (r : Rules) : Reader Node := do
  let word ← keyword "while"
  let test ← condition r
  let body ← r .statement
  return .branch .whileStatement [word, test, body.withRole .body]

def doStatement (r : Rules) : Reader Node := do
  let word ← keyword "do"
  let body ← r .statement
  let last ← keyword "while"
  let test ← condition r
  let finish ← opt (symbol ";")
  return .branch .doStatement ([word, body.withRole .body, last, test] ++ finish.toList)

def switchCase (r : Rules) : Reader Node := do
  let front ← (do
      let word ← keyword "case"
      let value ← before ":" (r .sequence) (r .untypedExpression)
      return [word, value.withRole .value]) <|>
    (do
      let word ← keyword "default"
      return [word])
  let colon ← symbol ":"
  let statements ← many (r .statement)
  return .branch .switchCase (front ++ [colon] ++ statements)

def switchStatement (r : Rules) : Reader Node := do
  let word ← keyword "switch"
  let test ← condition r
  let start ← symbol "\x7b"
  let cases ← many (switchCase r)
  let close ← symbol "\x7d"
  let body := Node.branch .switchBody (start :: cases ++ [close])
  return .branch .switchStatement [word, test, body.withRole .body]

def tryStatement (r : Rules) : Reader Node := do
  let word ← keyword "try"
  let body ← block r
  let handler ← optList do
    let word ← keyword "catch"
    let parameter ← optList do
      let start ← symbol "("
      let target ← r .pattern
      let type ← opt (typeClause r)
      let close ← symbol ")"
      return [start, target.withRole .parameter] ++ type.toList ++ [close]
    let body ← block r
    return [.branch .catchClause ([word] ++ parameter ++ [body.withRole .body])]
  let last ← optList do
    let word ← keyword "finally"
    let body ← block r
    return [.branch .finallyClause [word, body.withRole .body]]
  return .branch .tryStatement ([word, body.withRole .body] ++ handler ++ last)

/-- A jump, with the name of a label or a value on the same line. -/
def jump (word : String) (kind : Kind) (value : Reader Node) : Reader Node := do
  let mark ← keyword word
  let value ← if ← lineBreak then pure none else opt value
  let finish ← semicolon
  return .branch kind ([mark] ++ value.toList ++ finish)

def withStatement (r : Rules) : Reader Node := do
  let word ← keyword "with"
  let test ← condition r
  let body ← r .statement
  return .branch .withStatement [word, test, body.withRole .body]

def labeledStatement (r : Rules) : Reader Node := do
  let label ← name .statementIdentifier
  let colon ← symbol ":"
  let body ← r .statement
  return .branch .labeledStatement [label, colon, body.withRole .body]

def expressionStatement (r : Rules) : Reader Node := do
  let value ← r .sequence
  let finish ← semicolon
  return .branch .expressionStatement (value :: finish)

/-- A statement that begins with a word that may also be a name. -/
def contextual (r : Rules) (p : Reader Node) : Reader Node :=
  p <|> labeledStatement r <|> expressionStatement r

/-- A statement. -/
def statementRule (r : Rules) : Reader Node := do
  match ← nextPunctuation with
  | "\x7b" => block r <|> expressionStatement r
  | ";" => do
    let mark ← symbol ";"
    return .branch .emptyStatement [mark]
  | "@" => exportStatement r <|> classDeclaration r
  | _ =>
    match ← nextName with
    | "import" => importStatement r <|> expressionStatement r
    | "export" => exportStatement r
    | "const" => enumDeclaration r <|> variableStatement r
    | "var" => variableStatement r
    | "let" => contextual r (variableStatement r)
    | "function" => functionDeclaration r
    | "async" => contextual r (functionDeclaration r)
    | "class" => classDeclaration r
    | "abstract" => contextual r (classDeclaration r)
    | "type" => contextual r (typeAlias r)
    | "interface" => contextual r (interfaceDeclaration r)
    | "enum" => enumDeclaration r
    | "namespace" => contextual r (moduleDeclaration r)
    | "module" => contextual r (moduleDeclaration r)
    | "declare" => contextual r (ambientDeclaration r)
    | "if" => ifStatement r
    | "for" => forStatement r
    | "while" => whileStatement r
    | "do" => doStatement r
    | "switch" => switchStatement r
    | "try" => tryStatement r
    | "return" => jump "return" .returnStatement (r .sequence)
    | "throw" => jump "throw" .throwStatement (r .sequence)
    | "break" => jump "break" .breakStatement (name .statementIdentifier)
    | "continue" => jump "continue" .continueStatement (name .statementIdentifier)
    | "debugger" => jump "debugger" .debuggerStatement miss
    | "with" => withStatement r
    | "" => expressionStatement r
    | _ => labeledStatement r <|> expressionStatement r

end ParamSchema.Parse
