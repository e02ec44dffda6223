import ParamSchema.Parse.Rules

/-!
Patterns: what names are bound to, and expressions on the left of an assignment read as patterns.
-/

namespace ParamSchema.Parse

open Reader

/-- A value for a part of a pattern that is absent. -/
def patternDefault (r : Rules) (target : Node) : Reader Node :=
  (do
    let mark ← symbol "="
    let value ← r .expression
    return .branch .assignmentPattern [target, mark, value.withRole .value]) <|> pure target

/-- A part of an object pattern. -/
def patternMember (r : Rules) : Reader Node :=
  (do
    let dots ← symbol "..."
    let target ← r .pattern
    return .branch .restPattern [dots, target]) <|>
  (do
    let key ← propertyName r
    let colon ← symbol ":"
    let target ← r .pattern
    let target ← patternDefault r target
    return .branch .pairPattern [key.withRole .key, colon, target.withRole .value]) <|>
  (do
    let target ← name .shorthandPattern
    patternDefault r target)

/-- A part of an array pattern; parts may be left out. -/
def patternElement (r : Rules) : Reader Node :=
  symbol "," <|>
  (do
    let dots ← symbol "..."
    let target ← r .pattern
    return .branch .restPattern [dots, target]) <|>
  (do
    let target ← r .pattern
    patternDefault r target)

/-- The target of a binding. -/
def patternRule (r : Rules) : Reader Node := do
  match ← nextPunctuation with
  | "\x7b" => do
    let start ← symbol "\x7b"
    let items ← commaList (patternMember r)
    let close ← symbol "\x7d"
    return .branch .objectPattern (start :: items ++ [close])
  | "[" => do
    let start ← symbol "["
    let items ← many (patternElement r)
    let close ← symbol "]"
    return .branch .arrayPattern (start :: items ++ [close])
  | _ => name .identifier

mutual

/-- An expression read as the pattern that is spelled alike. -/
def asPattern : Node → Node
  | .mk kind role start stop line children =>
    match kind with
    | .object => .mk .objectPattern role start stop line (asPatterns children)
    | .array => .mk .arrayPattern role start stop line (asPatterns children)
    | .pair => .mk .pairPattern role start stop line (asPatterns children)
    | .spreadElement => .mk .restPattern role start stop line (asPatterns children)
    | .shorthandProperty => .mk .shorthandPattern role start stop line children
    | .assignmentExpression => .mk .assignmentPattern role start stop line children
    | _ => .mk kind role start stop line children

def asPatterns : List Node → List Node
  | [] => []
  | n :: ns => asPattern n :: asPatterns ns

end

end ParamSchema.Parse
