import ParamSchema.Resolver

/-!
Default values. An expression is folded to the text of its value as far as literals, arithmetic and
constants go, to a limited depth; what cannot be folded stays as it is written.
-/

namespace ParamSchema

namespace Defaults

/-- The result of an arithmetic operator on numbers; there is none for a zero divisor. -/
def arithmetic (operator : Text) (x y : Double) : Option Double :=
  if operator == txt "+" then some (x + y)
  else if operator == txt "-" then some (x - y)
  else if operator == txt "*" then some (x * y)
  else if operator == txt "/" then if y.isZero then none else some (x / y)
  else if operator == txt "%" then if y.isZero then none else some (x % y)
  else none

def isNameStart (c : CodePoint) : Bool :=
  c.isAsciiLower || c.isAsciiUpper || c == chr '_' || c == chr '$'

/-- Whether a text is a plain name; one line feed may follow it. -/
def isName (t : Text) : Bool :=
  let t := if t.getLast? == some (chr '\n') then t.dropLast else t
  t.head?.any isNameStart && t.all fun c => isNameStart c || c.isAsciiDigit

/-- The type of a constant that says its value. -/
def tellingType (type : Option Text) : Option Text :=
  type.filter fun t => !t.isEmpty && t != txt "any" && !isName t

/-- The value of an operator on folded operands. -/
def foldedBinary (operator left right : Text) : Except Overflow (Option Text) := do
  match ← Numeral.reduced? left, ← Numeral.reduced? right with
  | some x, some y => return ((arithmetic operator x y).filter Double.isFinite).map Double.text
  | _, _ => return none

/-- The text of the value at a site; the number is the depth that is left. -/
def evaluate (r : Resolver) : Nat → Site → Except Overflow Text
  | 0, s => return s.text
  | depth + 1, s =>
    let folded (part : Option Site) : Except Overflow Text :=
      match part with
      | some part => evaluate r depth part
      | none => return []
    match s.node.kind with
    | .string => return [chr '\x22'] ++ (← s.file.stringValue s.node) ++ [chr '\x22']
    | .number => return ((← s.file.numberOf? s.node).map Double.text).getD s.text
    | .trueLiteral => return txt "true"
    | .falseLiteral => return txt "false"
    | .nullLiteral => return txt "null"
    | .parenthesizedExpression =>
      match s.proper with
      | inner :: _ => evaluate r depth inner
      | [] => return s.text
    | .binaryExpression => do
      let left ← folded (s.child? .left)
      let right ← folded (s.child? .right)
      let operator := s.file.textOf? (s.node.child? .operator)
      return (← foldedBinary operator left right).getD s.text
    | .unaryExpression => do
      if s.file.textOf? (s.node.child? .operator) != txt "-" then return s.text
      let operand ← folded (s.child? .argument)
      return ((← Numeral.reduced? operand).map (Double.text ∘ Double.neg)).getD s.text
    | .identifier | .shorthandProperty =>
      let value : Except Overflow Text := do
        match tellingType (← r.identifierType? s) with
        | some text => return text
        | none =>
          match r.initializer? s with
          | some initializer => evaluate r depth initializer
          | none => return s.text
      -- a constant that cannot be folded stays as it is written
      match value with
      | .ok text => return text
      | .error _ => return s.text
    | _ => return s.text

/-- The depth to which default values are folded. -/
def defaultLimit : Int := 5

/-- The text of the default value at a site. A limit below zero folds nothing. -/
def value (r : Resolver) (limit : Int) (s : Site) : Except Overflow Text :=
  evaluate r (limit + 1).toNat s

end Defaults

end ParamSchema
