import ParamSchema.Parse.Rules

/-!
Markup inside scripts: elements with attributes, text, nested elements and expressions in braces.
-/

namespace ParamSchema.Parse

open Reader

/-- The length of the name of an element or attribute. -/
def markupNameLength (cs : List Char) : Nat :=
  match cs with
  | [] => 0
  | c :: _ =>
    if isNameStart c then
      (cs.takeWhile fun c => isNamePart c || c == '-' || c == '.' || c == ':').length
    else 0

def markupName : Reader Node := do
  toToken
  measured .markupName markupNameLength

/-- An expression in braces, or nothing but a comment. -/
def markupExpression (r : Rules) : Reader Node := do
  let start ← symbol "\x7b"
  let inside ← optList ((do
      let dots ← symbol "..."
      let value ← r .expression
      return [.branch .spreadElement [dots, value]]) <|> (do
      let value ← r .sequence
      return [value]))
  let close ← symbol "\x7d"
  return .branch .markupExpression (start :: inside ++ [close])

/-- A string as the value of an attribute; it has no escapes. -/
def markupString : Reader Node := do
  toToken
  match ← look (·.rest) with
  | quote :: _ =>
    if quote == '\x27' || quote == '\x22' then
      let start ← leaf (.token (String.singleton quote)) 1
      let inside ← opt (measured .stringFragment fun cs => (cs.takeWhile (· != quote)).length)
      let close ← immediate quote
      return .branch .string (start :: inside.toList ++ [close])
    else miss
  | [] => miss

def markupAttribute (r : Rules) : Reader Node :=
  markupExpression r <|> (do
    let title ← markupName
    let value ← optList do
      let mark ← symbol "="
      let value ← markupString <|> markupExpression r <|> r .markup
      return [mark, value]
    return .branch .markupAttribute (title :: value))

/-- What stands between the tags of an element. -/
def markupChild (r : Rules) : Reader Node := do
  match ← look (·.rest) with
  | '\x7b' :: _ => markupExpression r
  | '<' :: '/' :: _ => miss
  | '<' :: _ => r .markup
  | _ => measured .markupText fun cs => (cs.takeWhile fun c => c != '\x7b' && c != '<').length

/-- The rest of an element behind its opening tag. -/
def markupRest (r : Rules) (opening : Node) : Reader Node := do
  let children ← many (markupChild r)
  let start ← bracket '<'
  let slash ← bracket '/'
  let title ← opt markupName
  let close ← bracket '>'
  let closing := Node.branch .markupClosing ([start, slash] ++ title.toList ++ [close])
  return .branch .markupElement (opening :: children ++ [closing])

/-- An element. -/
def markupRule (r : Rules) : Reader Node := do
  let start ← bracket '<'
  let title ← opt markupName
  let arguments ← opt (typeArguments r)
  let attributes ← if title.isSome then many (markupAttribute r) else pure []
  let front := start :: title.toList ++ arguments.toList ++ attributes
  (do
    let slash ← bracket '/'
    let close ← bracket '>'
    return .branch .markupSelfClosing (front ++ [slash, close])) <|>
  (do
    let close ← bracket '>'
    markupRest r (.branch .markupOpening (front ++ [close])))

end ParamSchema.Parse
