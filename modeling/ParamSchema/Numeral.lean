import ParamSchema.Double.Decimal
import ParamSchema.Text.Digit
import ParamSchema.Text.Search

/-!
Numerals: integers in a radix, decimal numbers, number literals of source files and the numbers
that reduced texts denote.
-/

namespace ParamSchema

/-- What is too large to be represented. -/
inductive Overflow where
  /-- An integer literal beyond all doubles. -/
  | number
  /-- An escape whose number does not fit 32 bits. -/
  | escape
  deriving DecidableEq, Repr

namespace Numeral

/-- The number that digits denote in a radix. -/
def digits? (radix : Nat) (t : Text) : Option Nat :=
  t.foldl (fun n? c => do some ((← n?) * radix + (← c.digitValue? radix))) (some 0)

/-- Digits of a radix, in groups with single underscores between them. -/
def grouped? (radix : Nat) (t : Text) : Option Nat :=
  let groups := Text.splitOn (chr '_') t
  if groups.any List.isEmpty then none else digits? radix groups.flatten

/-- The letter that marks a radix. -/
def radixMark : Nat → Option CodePoint
  | 16 => some (chr 'x')
  | 8 => some (chr 'o')
  | 2 => some (chr 'b')
  | _ => none

/-- The text without the mark `0x`, `0o` or `0b` of a radix; an underscore may follow the mark. -/
def dropMark (radix : Nat) (t : Text) : Text :=
  match radixMark radix, t with
  | some mark, zero :: letter :: rest =>
    if zero == chr '0' && letter.asciiLower == mark then
      match rest with
      | [] => rest
      | c :: rest' => if c == chr '_' then rest' else rest
    else t
  | _, _ => t

/-- A sign and the rest of the text. -/
def sign (t : Text) : Bool × Text :=
  match t with
  | [] => (false, t)
  | c :: rest =>
    if c == chr '-' then (true, rest)
    else if c == chr '+' then (false, rest) else (false, t)

/-- An integer in a radix: white space around it, a sign, the mark of the radix and underscores
between digits are allowed. -/
def integer? (radix : Nat) (t : Text) : Option Int :=
  let (negative, t) := sign (Text.trim t.plain)
  (grouped? radix (dropMark radix t)).map fun n => if negative then -(n : Int) else n

/-- The radix that a mark at the beginning of a text announces. -/
def markedRadix? (t : Text) : Option Nat :=
  match t with
  | zero :: letter :: _ =>
    if zero == chr '0' then
      [16, 8, 2].find? fun radix => radixMark radix == some letter.asciiLower
    else none
  | _ => none

/-- The power of ten at the end of a decimal number. -/
def exponent? (t : Text) : Option Int :=
  match t with
  | [] => some 0
  | c :: rest =>
    if c.asciiLower == chr 'e' then
      let (negative, rest) := sign rest
      if rest.isEmpty then none
      else (digits? 10 rest).map fun n => if negative then -(n : Int) else n
    else none

/-- A decimal number: digits with at most one point among them, and a power of ten. -/
def decimal? (t : Text) : Option (Nat × Int) := do
  let whole := t.takeWhile CodePoint.isAsciiDigit
  let rest := t.dropWhile CodePoint.isAsciiDigit
  let (fraction, rest) := match rest with
    | [] => ([], [])
    | c :: tail =>
      if c == chr '.' then
        (tail.takeWhile CodePoint.isAsciiDigit, tail.dropWhile CodePoint.isAsciiDigit)
      else ([], rest)
  if (whole ++ fraction).isEmpty then none
  else some ((← digits? 10 (whole ++ fraction)), (← exponent? rest) - fraction.length)

/-- A floating point numeral, or the words for infinity and for no number. -/
def float? (t : Text) : Option Double :=
  let (negative, t) := sign (Text.trim t.plain)
  let word := Text.asciiLower t
  if word == txt "inf" || word == txt "infinity" then some (.infinity negative)
  else if word == txt "nan" then some .nan
  else (decimal? t).map fun (digits, exponent) => Double.ofDecimal negative digits exponent

/-- The double of an integer; too large ones overflow. -/
def ofInteger (n : Nat) : Except Overflow Double :=
  match Double.ofNat n with
  | .infinity _ => .error .number
  | x => .ok x

/-- The double of an integer with the mark of its radix. -/
def marked? (radix : Nat) (t : Text) : Except Overflow (Option Double) :=
  match integer? radix t with
  | none => .ok none
  | some n => (ofInteger n.natAbs).map some

def isOctalDigit (c : CodePoint) : Bool := 0x30 ≤ c.val && c.val ≤ 0x37

/-- The number of a literal. Underscores are skipped; literals of unbounded integers have no
number; a leading zero makes a literal octal unless it has another digit than those of that
radix. -/
def literal? (t : Text) : Except Overflow (Option Double) :=
  let t := Text.asciiLower (Text.trim (t.filter (· != chr '_')))
  if t.isEmpty || t.getLast? == some (chr 'n') then .ok none
  else match markedRadix? t with
    | some radix => marked? radix t
    | none =>
      if 1 < t.length && t.head? == some (chr '0') && t.all isOctalDigit then
        match digits? 8 t with
        | some n => (ofInteger n).map some
        | none => .ok none
      else .ok (float? t)

/-- The finite number that a reduced text denotes. -/
def reduced? (t : Text) : Except Overflow (Option Double) :=
  let t := Text.trim t
  if t.isEmpty || t.contains (chr '_') then .ok none
  else match float? t with
    | some x => .ok (if x.isFinite then some x else none)
    | none =>
      match markedRadix? t with
      | some radix => marked? radix t
      | none => .ok none

end Numeral

end ParamSchema
