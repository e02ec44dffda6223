import ParamSchema.Parse.Reader

/-!
Literals: numbers, strings with their fragments and escapes, templates and regular expressions.
-/

namespace ParamSchema.Parse

/-! ### Lengths of literals -/

/-- The length of digits with single underscores between them; `inside` tells whether a digit
stands before. -/
def groupFrom (isDigit : Char → Bool) (inside : Bool) : List Char → Nat
  | [] => 0
  | c :: rest =>
    if isDigit c then groupFrom isDigit true rest + 1
    else if c == '_' && inside && rest.head?.any isDigit then groupFrom isDigit false rest + 1
    else 0

/-- The length of digits with single underscores between them. -/
def groupLength (isDigit : Char → Bool) (cs : List Char) : Nat := groupFrom isDigit false cs

/-- The length of an exponent, zero if there is none. -/
def exponentLength (cs : List Char) : Nat :=
  match cs with
  | e :: rest =>
    if e == 'e' || e == 'E' then
      let signLength := match rest with
        | c :: _ => if c == '+' || c == '-' then 1 else 0
        | [] => 0
      let digits := groupLength Char.isDigit (rest.drop signLength)
      if digits = 0 then 0 else digits + signLength + 1
    else 0
  | [] => 0

/-- The length of a point, the digits behind it and an exponent. -/
def fractionLength (cs : List Char) : Nat :=
  match cs with
  | '.' :: rest =>
    let digits := groupLength Char.isDigit rest
    digits + 1 + exponentLength (rest.drop digits)
  | _ => exponentLength cs

/-- The length of digits in a radix behind a mark of two characters. -/
def markedLength (isDigit : Char → Bool) (cs : List Char) : Nat :=
  let digits := groupLength isDigit (cs.drop 2)
  if digits = 0 then 0
  else if (cs.drop (digits + 2)).head? == some 'n' then digits + 3 else digits + 2

/-- The length of a number, zero if there is none. -/
def numberLength (cs : List Char) : Nat :=
  match cs with
  | '0' :: 'x' :: _ => markedLength isHexDigit cs
  | '0' :: 'X' :: _ => markedLength isHexDigit cs
  | '0' :: 'o' :: _ => markedLength (fun c => '0' ≤ c && c ≤ '7') cs
  | '0' :: 'O' :: _ => markedLength (fun c => '0' ≤ c && c ≤ '7') cs
  | '0' :: 'b' :: _ => markedLength (fun c => c == '0' || c == '1') cs
  | '0' :: 'B' :: _ => markedLength (fun c => c == '0' || c == '1') cs
  | '.' :: d :: _ => if d.isDigit then fractionLength cs else 0
  | _ =>
    let whole := groupLength Char.isDigit cs
    let rest := cs.drop whole
    if whole = 0 then 0
    else if rest.head? == some 'n' then whole + 1
    else if 1 < whole && cs.head? == some '0' &&
        !((cs.drop 1).head?.any fun c => '1' ≤ c && c ≤ '9') then whole
    else whole + fractionLength rest

/-- The length of an escape sequence, zero if there is none. A carriage return and another end of a
line behind it are one line break. -/
def escapeLength (cs : List Char) : Nat :=
  match cs with
  | '\\' :: c :: rest =>
    if c == 'x' then if (rest.take 2).length == 2 && (rest.take 2).all isHexDigit then 4 else 0
    else if c == 'u' then unicodeEscape cs
    else if '0' ≤ c && c ≤ '7' then
      ((rest.take 2).takeWhile fun d => '0' ≤ d && d ≤ '7').length + 2
    else if c == '\r' && rest.head?.any (fun d => d != '\r' && isLineEnd d) then 3
    else 2
  | _ => 0

/-- The length of characters of a template up to its end, an escape or a substitution. -/
def templateLength : List Char → Nat
  | [] => 0
  | c :: rest =>
    if c == '\x60' || c == '\\' || (c == '$' && rest.head? == some '\x7b') then 0
    else templateLength rest + 1

/-- Where one is inside a regular expression. -/
inductive RegexPart where
  | plain
  | set
  /-- Behind a backslash, inside brackets or not. -/
  | escaped (set : Bool)

/-- The length of a regular expression up to its closing slash, which is included. -/
def regexLength? : RegexPart → List Char → Option Nat
  | _, [] => none
  | part, c :: rest =>
    if c == '\n' || c == '\r' then none
    else match part with
      | .escaped set => (regexLength? (if set then .set else .plain) rest).map (· + 1)
      | .plain =>
        if c == '/' then some 1
        else (regexLength? (if c == '\\' then .escaped false else if c == '[' then .set else .plain)
          rest).map (· + 1)
      | .set =>
        (regexLength? (if c == '\\' then .escaped true else if c == ']' then .plain else .set)
          rest).map (· + 1)

namespace Reader

/-- Takes characters of a positive length. -/
def measured (kind : Kind) (length : List Char → Nat) : Reader Node := do
  let n := length (← look (·.rest))
  if n = 0 then miss else leaf kind n

def number : Reader Node := do
  toToken
  measured .number numberLength

/-- Takes the character `c`, which has to follow immediately. -/
def immediate (c : Char) : Reader Node := do
  match ← look (·.rest) with
  | d :: _ => if c == d then leaf (.token (String.singleton c)) 1 else miss
  | [] => miss

/-- The inside and the end of a string in the given quotes. -/
def stringTail (quote : Char) : Reader (List Node) := do
  let parts ← many (
    measured .stringFragment (fun cs =>
      (cs.takeWhile fun c => c != quote && c != '\\' && c != '\n' && c != '\r').length) <|>
    measured .escapeSequence escapeLength)
  let close ← immediate quote
  return parts ++ [close]

/-- A string literal. -/
def string : Reader Node := do
  toToken
  match ← look (·.rest) with
  | quote :: _ =>
    if quote == '\x27' || quote == '\x22' then
      let start ← leaf (.token (String.singleton quote)) 1
      let tail ← stringTail quote
      return .branch .string (start :: tail)
    else miss
  | [] => miss

/-- A substitution inside a template. -/
def substitution (inside : Reader Node) : Reader Node := do
  match ← look (·.rest) with
  | '$' :: '\x7b' :: _ =>
    let start ← leaf (.token "$\x7b") 2
    let value ← inside
    let close ← symbol "\x7d"
    return .branch .templateSubstitution [start, value, close]
  | _ => miss

/-- A template with substitutions. -/
def template (kind : Kind) (inside : Reader Node) : Reader Node := do
  toToken
  let start ← immediate '\x60'
  let parts ← many (measured .stringFragment templateLength <|>
    measured .escapeSequence escapeLength <|> substitution inside)
  let close ← immediate '\x60'
  return .branch kind (start :: parts ++ [close])

/-- A regular expression. -/
def regex : Reader Node := do
  toToken
  match ← look (·.rest) with
  | '/' :: rest =>
    match regexLength? .plain rest with
    | some n =>
      let flags := (rest.drop n).takeWhile fun c => 'a' ≤ c && c ≤ 'z'
      leaf .regex (n + 1 + flags.length)
    | none => miss
  | _ => miss

end Reader

end ParamSchema.Parse
