import ParamSchema.Text.Blank
import ParamSchema.Text.Search

/-!
Types that comments declare. A type tag is a type between braces behind `@type`, in a block that
begins with `/**` and has a star before the tag; a call without a type argument gets its type from
the nearest tag above it.
-/

namespace ParamSchema

/-- A type that a comment declares, with the line on which the comment starts. -/
structure TypeTag where
  type : Text
  line : Int
  deriving DecidableEq, Repr

namespace TypeTag

/-- The type behind a star, and the rest of the text behind it. -/
def afterStar? (t : Text) : Option (Text × Text) := do
  let t ← Text.after? (txt "@type") (t.dropWhile CodePoint.isBlank)
  let t ← Text.after? (txt "\x7b") (t.dropWhile CodePoint.isBlank)
  let (type, rest) ← Text.cutFirst? (txt "\x7d") t
  if type.isEmpty then none else some (type, rest)

/-- The first type that stands behind a star, and the rest of the text behind it. -/
def firstType? : Text → Option (Text × Text)
  | [] => none
  | c :: rest =>
    match if c == chr '*' then afterStar? rest else none with
    | some found => some found
    | none => firstType? rest

/-- The type of a block that a text begins with, and the rest of the text behind the block. -/
def block? (t : Text) : Option (Text × Text) := do
  let (type, rest) ← firstType? (← Text.after? (txt "/**") t)
  let (_, rest) ← Text.cutFirst? (txt "*/") rest
  some (Text.trim type, rest)

/-- The type tags of a text that starts on a line, leaving out the first code points. -/
def allFrom : Nat → Int → Text → List TypeTag
  | _, _, [] => []
  | skip, line, c :: rest =>
    let below := if c == chr '\n' then line + 1 else line
    match skip with
    | skip + 1 => allFrom skip below rest
    | 0 =>
      match block? (c :: rest) with
      | none => allFrom 0 below rest
      | some (type, behind) => ⟨type, line⟩ :: allFrom (rest.length - behind.length) below rest

/-- The type tags of a text, in their order. -/
def all (t : Text) : List TypeTag := allFrom 0 1 t

/-- The later of two tags, the first one when they start on the same line. -/
def later (closest : Option TypeTag) (tag : TypeTag) : Option TypeTag :=
  match closest with
  | none => some tag
  | some other => if other.line < tag.line then some tag else some other

/-- The nearest of the tags that start above a line, at most `reach` lines above it. -/
def nearest? (tags : List TypeTag) (line reach : Int) : Option TypeTag :=
  (tags.filter fun tag => line - reach ≤ tag.line && tag.line < line).foldl later none

/-- How many lines above a call its tag may start. -/
def defaultReach : Int := 5

/-- The members of a type on lines of their own. -/
def layout (type : Text) : Text :=
  let body := Text.trim type
  let body := match Text.after? (txt "\x7b") body with
    | some inner => Text.dropEndWhile (· == chr '\x7d') inner
    | none => body
  let members := (Text.splitOn (chr ';') body).map Text.trim
  Text.joinWith (txt "\n") ((members.filter (!·.isEmpty)).map (txt "  " ++ ·))

end TypeTag

end ParamSchema
