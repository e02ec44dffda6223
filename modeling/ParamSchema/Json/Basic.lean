import ParamSchema.Text.Search

/-!
JSON values and their two written forms: a compact one for machines, which keeps all characters
that need no escape, and an indented one for people, which is plain ASCII.
-/

namespace ParamSchema

inductive Json where
  | null
  | boolean (value : Bool)
  | integer (value : Int)
  | text (value : Text)
  | list (items : List Json)
  | object (members : List (Text × Json))

namespace Json

/-- A hexadecimal digit in lower case. -/
def hexDigit (n : Nat) : CodePoint := chr (Nat.digitChar (n % 16))

/-- An escape with four hexadecimal digits. -/
def unicodeEscape (n : Nat) : Text :=
  txt "\\u" ++ [hexDigit (n / 4096), hexDigit (n / 256), hexDigit (n / 16), hexDigit n]

/-- The code points that must be escaped, with the letters of their short escapes. -/
def shortEscapes : List (Nat × Char) :=
  [(0x22, '\x22'), (0x5C, '\\'), (0x08, 'b'), (0x09, 't'), (0x0A, 'n'), (0x0C, 'f'), (0x0D, 'r')]

/-- A code point inside a string; `other` writes those that need no escape. -/
def escaped (other : CodePoint → Text) (c : CodePoint) : Text :=
  match shortEscapes.lookup c.val with
  | some letter => [chr '\\', chr letter]
  | none => if c.val < 0x20 then unicodeEscape c.val else other c

/-- A text between quotes. -/
def quoted (other : CodePoint → Text) (t : Text) : Text :=
  [chr '\x22'] ++ t.flatMap (escaped other) ++ [chr '\x22']

def booleanText (b : Bool) : Text := if b then txt "true" else txt "false"

/-! ### The compact form -/

/-- A text between quotes with all characters kept that need no escape. -/
def quotedRaw (t : Text) : Text := quoted (fun c => [c]) t

mutual

/-- A value without any white space. -/
def compact : Json → Text
  | .null => txt "null"
  | .boolean b => booleanText b
  | .integer n => Text.ofInt n
  | .text t => quotedRaw t
  | .list items => txt "[" ++ Text.joinWith (txt ",") (compactItems items) ++ txt "]"
  | .object members =>
    txt "\x7b" ++ Text.joinWith (txt ",") (compactMembers members) ++ txt "\x7d"

def compactItems : List Json → List Text
  | [] => []
  | item :: rest => compact item :: compactItems rest

def compactMembers : List (Text × Json) → List Text
  | [] => []
  | (name, value) :: rest =>
    (quotedRaw name ++ txt ":" ++ compact value) :: compactMembers rest

end

/-! ### The indented form -/

/-- A code point in ASCII; one beyond 16 bits takes two escapes. -/
def asciiPoint (c : CodePoint) : Text :=
  if c.val < 0x80 then [c]
  else if c.val < 0x10000 then unicodeEscape c.val
  else
    let n := c.val - 0x10000
    unicodeEscape (0xD800 + n / 0x400) ++ unicodeEscape (0xDC00 + n % 0x400)

/-- A text between quotes in ASCII. -/
def quotedAscii (t : Text) : Text := quoted asciiPoint t

/-- A line feed and the white space of a depth. -/
def newLine (depth : Nat) : Text := chr '\n' :: List.replicate (2 * depth) (chr ' ')

/-- Parts on lines of their own between two marks; without parts, only the marks. -/
def block (opening closing : Text) (depth : Nat) (parts : List Text) : Text :=
  if parts.isEmpty then opening ++ closing
  else
    opening ++ newLine (depth + 1) ++
      Text.joinWith (txt "," ++ newLine (depth + 1)) parts ++ newLine depth ++ closing

mutual

/-- A value with its parts on lines of their own, at a depth. -/
def indentedAt (depth : Nat) : Json → Text
  | .null => txt "null"
  | .boolean b => booleanText b
  | .integer n => Text.ofInt n
  | .text t => quotedAscii t
  | .list items => block (txt "[") (txt "]") depth (indentedItems (depth + 1) items)
  | .object members =>
    block (txt "\x7b") (txt "\x7d") depth (indentedMembers (depth + 1) members)

def indentedItems (depth : Nat) : List Json → List Text
  | [] => []
  | item :: rest => indentedAt depth item :: indentedItems depth rest

def indentedMembers (depth : Nat) : List (Text × Json) → List Text
  | [] => []
  | (name, value) :: rest =>
    (quotedAscii name ++ txt ": " ++ indentedAt depth value) :: indentedMembers depth rest

end

/-- A value with its parts on lines of their own. -/
def indented (value : Json) : Text := indentedAt 0 value

end Json

end ParamSchema
