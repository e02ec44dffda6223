import ParamSchema.Text.Utf8
import ParamSchema.Tree.Node

/-!
Reading characters into nodes. A reader is a function of the input that is left; it may fail, and
also then it tells how far it came, so that an error can be placed where no reader came further.
Tokens are read on demand, because what counts as a token depends on what is expected.
-/

namespace ParamSchema.Parse

/-- The two dialects of the language: in the second, angle brackets begin markup. -/
inductive Dialect where
  | script
  | markup
  deriving DecidableEq, Repr

/-- What is left to read. -/
structure Input where
  dialect : Dialect
  rest : List Char
  /-- The number of bytes read. -/
  offset : Nat
  /-- The line of the next character, from one. -/
  line : Nat
  /-- The farthest offset at which a token was missed, and its line. -/
  reach : Nat × Nat
  /-- No list of parts is longer than this. -/
  bound : Nat

/-- The beginning of a source text. -/
def Input.ofChars (dialect : Dialect) (chars : List Char) : Input :=
  ⟨dialect, chars, 0, 1, (0, 1), chars.length + 1⟩

/-- A reader of a value, with the input behind the value or behind the failure. -/
def Reader (α : Type) : Type := Input → Option α × Input

namespace Reader

variable {α β : Type}

instance : Monad Reader where
  pure a := fun s => (some a, s)
  bind p f := fun s =>
    match p s with
    | (some a, s') => f a s'
    | (none, s') => (none, s')

/-- Fails, and remembers the place if no failure was farther. -/
def miss : Reader α := fun s =>
  (none, if s.reach.1 < s.offset then { s with reach := (s.offset, s.line) } else s)

/-- Reads by `p` or else, from the same place, by `q`. -/
def orElse (p : Reader α) (q : Unit → Reader α) : Reader α := fun s =>
  match p s with
  | (some a, s') => (some a, s')
  | (none, s') => q () { s with reach := s'.reach }

instance : OrElse (Reader α) := ⟨orElse⟩

/-- Reads by `p` if that is possible. -/
def opt (p : Reader α) : Reader (Option α) := orElse (do return some (← p)) fun _ => pure none

/-- Reads a list by `p`, which may be empty. -/
def optList (p : Reader (List α)) : Reader (List α) := orElse p fun _ => pure []

/-- A property of the input ahead. -/
def look (f : Input → α) : Reader α := fun s => (some (f s), s)

/-- Tries `p` and goes back. -/
def ahead (p : Reader α) : Reader Bool := fun s =>
  match p s with
  | (some _, s') => (some true, { s with reach := s'.reach })
  | (none, s') => (some false, { s with reach := s'.reach })

/-- Reads by `p` up to `n` times. -/
def repeated : Nat → Reader α → Reader (List α)
  | 0, _ => pure []
  | n + 1, p => (do
      let a ← p
      let more ← repeated n p
      return a :: more) <|> pure []

/-- Reads by `p` as often as possible. -/
def many (p : Reader α) : Reader (List α) := fun s => repeated s.bound p s

/-- Extends a value by `f` up to `n` times. -/
def extended : Nat → (α → Reader α) → α → Reader α
  | 0, _, a => pure a
  | n + 1, f, a => (do
      let b ← f a
      extended n f b) <|> pure a

/-- Extends a value by `f` as often as possible. -/
def extend (f : α → Reader α) (a : α) : Reader α := fun s => extended s.bound f a s

end Reader

/-! ### Characters -/

/-- White space between tokens. -/
def isSpace (c : Char) : Bool :=
  let n := c.toNat
  (0x09 ≤ n && n ≤ 0x0D) || n == 0x20 || n == 0xA0 || n == 0x1680 ||
  (0x2000 ≤ n && n ≤ 0x200B) || n == 0x2028 || n == 0x2029 || n == 0x202F || n == 0x205F ||
  n == 0x2060 || n == 0x3000 || n == 0xFEFF

def isLineEnd (c : Char) : Bool :=
  c == '\n' || c == '\r' || c.toNat == 0x2028 || c.toNat == 0x2029

/-- ASCII characters that are part of no name. -/
def isPunctuation (c : Char) : Bool :=
  let n := c.toNat
  (0x21 ≤ n && n ≤ 0x23) || (0x25 ≤ n && n ≤ 0x2F) || (0x3A ≤ n && n ≤ 0x40) ||
  (0x5B ≤ n && n ≤ 0x5E) || n == 0x60 || (0x7B ≤ n && n ≤ 0x7E)

/-- Characters of names: all but control characters, white space and punctuation. -/
def isNamePart (c : Char) : Bool := 0x20 ≤ c.toNat && !isSpace c && !isPunctuation c

def isNameStart (c : Char) : Bool := isNamePart c && !c.isDigit

def isHexDigit (c : Char) : Bool :=
  c.isDigit || ('a' ≤ c && c ≤ 'f') || ('A' ≤ c && c ≤ 'F')

/-- The number of characters of a Unicode escape at the beginning, zero if there is none. -/
def unicodeEscape (cs : List Char) : Nat :=
  match cs with
  | '\\' :: 'u' :: '\x7b' :: rest =>
    let digits := rest.takeWhile isHexDigit
    if digits.isEmpty || (rest.drop digits.length).head? != some '\x7d' then 0
    else digits.length + 4
  | '\\' :: 'u' :: a :: b :: c :: d :: _ =>
    if isHexDigit a && isHexDigit b && isHexDigit c && isHexDigit d then 6 else 0
  | _ => 0

/-- The number of characters of a name at the beginning, `n` bounding the number of its parts. -/
def nameLength : Nat → List Char → Nat
  | 0, _ => 0
  | n + 1, cs =>
    match cs with
    | [] => 0
    | c :: rest =>
      if isNamePart c then nameLength n rest + 1
      else
        let k := unicodeEscape cs
        if k = 0 then 0 else nameLength n (cs.drop k) + k

/-- The name at the beginning, empty if there is none. -/
def nameAt (cs : List Char) : List Char :=
  match cs with
  | [] => []
  | c :: _ =>
    if isNameStart c || c == '\\' then cs.take (nameLength (cs.length + 1) cs) else []

/-! ### Moving through the input -/

/-- Passes one character. -/
def Input.pass (s : Input) (c : Char) (rest : List Char) : Input :=
  { s with
    rest := rest
    offset := s.offset + Utf8.width c
    line := if c == '\n' then s.line + 1 else s.line }

/-- Passes up to `n` characters. -/
def Input.advance : Nat → Input → Input
  | 0, s => s
  | n + 1, s =>
    match s.rest with
    | [] => s
    | c :: rest => Input.advance n (s.pass c rest)

/-- Where one is while passing what separates tokens. A comment remembers where it began. -/
inductive Gap where
  | blank
  /-- Behind a slash, which may begin a comment. -/
  | slash (start : Input)
  | lineComment
  | blockComment (start : Input)
  /-- Inside a block comment, behind a star. -/
  | star (start : Input)

/-- Where one is behind one more character, none when the character belongs to a token. -/
def Gap.next (s : Input) : Gap → Char → Option Gap
  | .blank, c => if c == '/' then some (.slash s) else if isSpace c then some .blank else none
  | .slash start, c =>
    if c == '/' then some .lineComment else if c == '*' then some (.blockComment start) else none
  | .lineComment, c => some (if isLineEnd c then .blank else .lineComment)
  | .blockComment start, c => some (if c == '*' then .star start else .blockComment start)
  | .star start, c =>
    some (if c == '/' then .blank else if c == '*' then .star start else .blockComment start)

/-- The input to go on with when no more can be passed. A comment without an end is not passed. -/
def Gap.back (s : Input) : Gap → Input
  | .blank => s
  | .lineComment => s
  | .slash start => start
  | .blockComment start => start
  | .star start => start

/-- Passes white space and comments. -/
def Input.passGap (gap : Gap) (s : Input) : List Char → Input
  | [] => gap.back s
  | c :: rest =>
    match gap.next s c with
    | some gap => Input.passGap gap (s.pass c rest) rest
    | none => gap.back s

/-- The input from the next token on. -/
def Input.toToken (s : Input) : Input := s.passGap .blank s.rest

/-! ### Tokens -/

namespace Reader

/-- Goes to the next token. -/
def toToken : Reader Unit := fun s => (some (), s.toToken)

/-- Whether the next token stands on a later line. -/
def lineBreak : Reader Bool := look fun s => s.line != s.toToken.line

/-- The next characters that are no white space or comment. -/
def next : Reader (List Char) := look fun s => s.toToken.rest

/-- Takes `n` characters as a node without parts. -/
def leaf (kind : Kind) (n : Nat) : Reader Node := fun s =>
  let s' := s.advance n
  (some (.mk kind none s.offset s'.offset s.line []), s')

end Reader

/-- Punctuation of several characters, longer ones first. -/
def longPunctuation : List String :=
  [">>>=", "...", "===", "!==", "**=", "<<=", ">>=", ">>>", "&&=", "||=", "??=", "=>", "==", "!=",
   "<=", ">=", "&&", "||", "??", "?.", "++", "--", "+=", "-=", "*=", "/=", "%=", "&=", "|=", "^=",
   "<<", ">>", "**"]

/-- The punctuation at the beginning, the longest one. A question mark before a point and a digit
stands alone. -/
def punctuationAt (cs : List Char) : String :=
  match cs with
  | [] => ""
  | c :: rest =>
    let longest := (longPunctuation.find? (·.toList.isPrefixOf cs)).getD (String.singleton c)
    if !isPunctuation c then ""
    else match rest with
      | '.' :: d :: _ => if c == '?' && d.isDigit then "?" else longest
      | _ => longest

namespace Reader

/-- The punctuation ahead, empty if there is none. -/
def nextPunctuation : Reader String := look fun s => punctuationAt s.toToken.rest

/-- The name ahead, empty if there is none. -/
def nextName : Reader String := look fun s => String.ofList (nameAt s.toToken.rest)

/-- Reads the punctuation `w`. -/
def symbol (w : String) : Reader Node := do
  toToken
  if punctuationAt (← next) == w then leaf (.token w) w.length else miss

/-- Reads the character `c`, also at the beginning of longer punctuation. -/
def bracket (c : Char) : Reader Node := do
  toToken
  match ← next with
  | d :: _ => if c == d then leaf (.token (String.singleton c)) 1 else miss
  | [] => miss

/-- Reads the word `w`. -/
def keyword (w : String) : Reader Node := do
  toToken
  if nameAt (← next) == w.toList then leaf (.token w) w.length else miss

/-- Reads one of the words. -/
def anyKeyword (ws : List String) : Reader Node := do
  toToken
  let name := String.ofList (nameAt (← next))
  if ws.contains name then leaf (.token name) name.length else miss

/-- Reads a name, whatever it is. -/
def name (kind : Kind) : Reader Node := do
  toToken
  let chars := nameAt (← next)
  if chars.isEmpty then miss else leaf kind chars.length

/-- Reads a name that is none of the words. -/
def nameBut (kind : Kind) (words : List String) : Reader Node := do
  toToken
  let chars := nameAt (← next)
  if chars.isEmpty || words.contains (String.ofList chars) then miss else leaf kind chars.length

/-- Parts with commas between them, and maybe one behind the last. -/
def commaList (item : Reader Node) : Reader (List Node) := optList do
  let first ← item
  let more ← many do
    let comma ← symbol ","
    let part ← item
    return [comma, part]
  let last ← opt (symbol ",")
  return first :: more.flatten ++ last.toList

/-- At least one part, with commas between them. -/
def commaList1 (item : Reader Node) : Reader (List Node) := do
  let first ← item
  let more ← many do
    let comma ← symbol ","
    let part ← item
    return [comma, part]
  return first :: more.flatten

end Reader

end ParamSchema.Parse
