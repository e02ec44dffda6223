import ParamSchema.Parse.Comments
import ParamSchema.Parse.Statements

/-!
The syntax tree of a source file. A file that cannot be read to its end has a node of kind `error`
behind the statements that could be read.
-/

namespace ParamSchema.Parse

open Reader

/-- The grammar up to a depth of nesting. -/
def rules : Nat → Rules
  | 0, _ => miss
  | depth + 1, rule =>
    let r := rules depth
    match rule with
    | .expression | .headExpression | .untypedExpression => expressionRule r rule
    | .sequence => sequenceRule r
    | .operand => operandRule r
    | .type | .arrowlessType => typeRule r rule
    | .pattern => patternRule r
    | .statement => statementRule r
    | .markup => markupRule r

/-- A depth that no text of the given length exceeds: reading goes at most through a statement, a
sequence and an expression before it takes a character. -/
def depthFor (length : Nat) : Nat := 4 * length + 8

/-- The line with which a script names its interpreter. -/
def hashBang : Reader Node := do
  match ← look (·.rest) with
  | '#' :: '!' :: _ => measured .hashBang fun cs => (cs.takeWhile (!isLineEnd ·)).length
  | _ => miss

/-- The line of the last character that is no white space. -/
def lastLine (chars : List Char) : Nat :=
  ((chars.reverse.dropWhile isSpace).filter (· == '\n')).length + 1

/-- The statements of a file, and an error if something is left. It is placed on the line where no
reader came further, but not behind the last token. -/
def fileParts (r : Rules) (lastLine : Nat) : Reader (List Node) := do
  let first ← opt hashBang
  let statements ← many (r .statement)
  toToken
  let rest ← look fun s =>
    if s.rest.isEmpty then []
    else
      let stop := (s.upTo (s.offset + 4 * s.bound) s.rest).offset
      [.mk .error none s.offset stop (min s.reach.2 lastLine) []]
  return first.toList ++ statements ++ rest

/-- The syntax tree of a source text. -/
def file (dialect : Dialect) (chars : List Char) : Node :=
  let s := Input.ofChars dialect chars
  let parts := ((fileParts (rules (depthFor chars.length)) (lastLine chars) s).1).getD []
  let parts := weaveFile s parts
  .mk .program none ((parts.head?.map Node.start).getD 0)
    (s.upTo (4 * s.bound) s.rest).offset ((parts.head?.map Node.line).getD 1) parts

end ParamSchema.Parse
