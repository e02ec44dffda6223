/-!
The kinds of nodes of a syntax tree, and the roles that a node can have in the node around it.
-/

namespace ParamSchema

/-- What a node is. Tokens without a meaning of their own (punctuation and keywords) are of kind
`token`; nodes of all other kinds are called named. -/
inductive Kind where
  | token (text : String)
  | comment
  | error
  | program
  | hashBang
  -- modules
  | importStatement
  | importClause
  | namespaceImport
  | namedImports
  | importSpecifier
  | importRequireClause
  | importAlias
  | importAttribute
  | exportStatement
  | exportClause
  | exportSpecifier
  | namespaceExport
  -- declarations
  | lexicalDeclaration
  | variableDeclaration
  | variableDeclarator
  | functionDeclaration
  | functionSignature
  | classDeclaration
  | classBody
  | classHeritage
  | fieldDefinition
  | methodDefinition
  | abstractMethodSignature
  | staticBlock
  | decorator
  | typeAlias
  | interfaceDeclaration
  | interfaceBody
  | extendsTypeClause
  | enumDeclaration
  | enumBody
  | enumAssignment
  | ambientDeclaration
  | moduleDeclaration
  -- statements
  | statementBlock
  | ifStatement
  | elseClause
  | forStatement
  | forInStatement
  | whileStatement
  | doStatement
  | switchStatement
  | switchBody
  | switchCase
  | tryStatement
  | catchClause
  | finallyClause
  | labeledStatement
  | returnStatement
  | throwStatement
  | breakStatement
  | continueStatement
  | debuggerStatement
  | withStatement
  | emptyStatement
  | expressionStatement
  -- names
  | identifier
  | propertyIdentifier
  | privateIdentifier
  | statementIdentifier
  | shorthandProperty
  | computedName
  -- literals
  | number
  | string
  | stringFragment
  | escapeSequence
  | template
  | templateSubstitution
  | regex
  | trueLiteral
  | falseLiteral
  | nullLiteral
  | undefinedLiteral
  -- expressions
  | thisExpression
  | superExpression
  | importCallee
  | parenthesizedExpression
  | binaryExpression
  | unaryExpression
  | updateExpression
  | ternaryExpression
  | assignmentExpression
  | augmentedAssignment
  | sequenceExpression
  | arrowFunction
  | functionExpression
  | classExpression
  | object
  | array
  | pair
  | spreadElement
  | memberExpression
  | subscriptExpression
  | callExpression
  | arguments
  | newExpression
  | metaProperty
  | asExpression
  | satisfiesExpression
  | nonNullExpression
  | typeAssertion
  | awaitExpression
  | yieldExpression
  | instantiationExpression
  | optionalChain
  -- patterns and parameters
  | objectPattern
  | arrayPattern
  | pairPattern
  | shorthandPattern
  | restPattern
  | assignmentPattern
  | formalParameters
  | requiredParameter
  | optionalParameter
  | typeParameters
  | typeParameter
  -- types
  | typeClause
  | typeArguments
  | predefinedType
  | typeIdentifier
  | nestedTypeIdentifier
  | nestedIdentifier
  | genericType
  | objectType
  | propertySignature
  | methodSignature
  | indexSignature
  | mappedTypeClause
  | callSignature
  | constructSignature
  | unionType
  | intersectionType
  | literalType
  | parenthesizedType
  | arrayType
  | lookupType
  | tupleType
  | tupleMember
  | optionalType
  | restType
  | functionType
  | constructorType
  | conditionalType
  | keyofType
  | typeQuery
  | readonlyType
  | inferType
  | templateLiteralType
  | thisType
  | typePredicate
  -- markup inside scripts
  | markupElement
  | markupOpening
  | markupClosing
  | markupSelfClosing
  | markupText
  | markupExpression
  | markupAttribute
  | markupName
  deriving DecidableEq, Repr

namespace Kind

def isNamed : Kind → Bool
  | .token _ => false
  | _ => true

end Kind

/-- What a node is to the node around it. -/
inductive Role where
  | alternative
  | argument
  | arguments
  | body
  | condition
  | consequence
  | constructor
  | declaration
  | function
  | index
  | indexType
  | key
  | left
  | member
  | name
  | newName
  | object
  | operator
  | parameter
  | parameters
  | pattern
  | returnType
  | right
  | source
  | type
  | typeArguments
  | typeParameters
  | value
  deriving DecidableEq, Repr

end ParamSchema
