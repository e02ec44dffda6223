import ParamSchema.Documentation.Lead
import ParamSchema.Text.Word

/-!
What a documentation comment says: a description up to the first blank line or tag, an example, and
whether the value is a password.
-/

namespace ParamSchema

structure DocComment where
  description : Text
  example_ : Text
  password : Bool
  deriving DecidableEq, Repr

namespace DocComment

def empty : DocComment := ⟨[], [], false⟩

/-- The text before the first tag and before the first blank line. -/
def beforeTags : Text → Text
  | [] => []
  | c :: rest =>
    if c == chr '@' || (c == chr '\n' && (rest.takeWhile CodePoint.isBlank).contains (chr '\n'))
    then []
    else c :: beforeTags rest

def isValuePoint (c : CodePoint) : Bool := c != chr '\n' && c != chr '@' && c != chr '*'

/-- The value behind a tag. White space has to part them; where nothing else follows, white space
other than a line feed behind the first is a value that is empty once trimmed. -/
def tagValue? (rest : Text) : Option Text :=
  let blanks := rest.takeWhile CodePoint.isBlank
  let value := (rest.dropWhile CodePoint.isBlank).takeWhile isValuePoint
  if blanks.isEmpty then none
  else if !value.isEmpty then some (Text.trim value)
  else if (blanks.drop 1).any (· != chr '\n') then some []
  else none

/-- The value of the first of the given tags that has one. -/
def tagged? (tag : Text) : Text → Option Text
  | [] => none
  | c :: rest =>
    match (Text.after? tag (c :: rest)).bind tagValue? with
    | some value => some value
    | none => tagged? tag rest

/-- Whether a text has a tag that ends where it ends. -/
def hasTag (tag : Text) : Text → Bool
  | [] => false
  | c :: rest =>
    (Text.after? tag (c :: rest)).any (fun behind => !behind.head?.any CodePoint.isWord) ||
      hasTag tag rest

/-- Reads the text of a documentation comment. The default value serves as an example where no
other is given. -/
def ofText (t : Text) : DocComment :=
  let example_ := (tagged? (txt "@example") t).getD []
  { description := Text.trim (beforeTags t)
    example_ := if example_.isEmpty then (tagged? (txt "@default") t).getD [] else example_
    password := hasTag (txt "@password") t }

/-- The documentation of the declaration at a site. -/
def ofSite (s : Site) : DocComment :=
  let text := (Lead.ofSite s).documentation
  if text.isEmpty then empty else ofText text

end DocComment

end ParamSchema
