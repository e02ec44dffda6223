/-!
Code points and texts. A text is a list of code points rather than a `String`, because a string
literal of an analysed file may name one half of a surrogate pair on its own, and such a half has
to survive until it is printed.
-/

namespace ParamSchema

/-- A Unicode code point; a surrogate may stand alone. -/
structure CodePoint where
  val : Nat
  isLt : val < 0x110000
  deriving DecidableEq, Repr

/-- A sequence of code points. -/
abbrev Text := List CodePoint

namespace CodePoint

theorem toNat_lt (c : Char) : c.toNat < 0x110000 := by
  have h := c.valid
  simp only [UInt32.isValidChar, Nat.isValidChar] at h
  have : c.toNat = c.val.toNat := rfl
  omega

def ofChar (c : Char) : CodePoint := ⟨c.toNat, toNat_lt c⟩

/-- The code point of a number, when there is one. -/
def ofNat? (n : Nat) : Option CodePoint :=
  if h : n < 0x110000 then some ⟨n, h⟩ else none

def isSurrogate (c : CodePoint) : Bool := 0xD800 ≤ c.val && c.val ≤ 0xDFFF

/-- The character of a code point; a lone surrogate is none. -/
def toChar? (c : CodePoint) : Option Char :=
  if h : c.val.isValidChar then some (Char.ofNatAux c.val h) else none

def isAsciiDigit (c : CodePoint) : Bool := 0x30 ≤ c.val && c.val ≤ 0x39

def isAsciiLower (c : CodePoint) : Bool := 0x61 ≤ c.val && c.val ≤ 0x7A

def isAsciiUpper (c : CodePoint) : Bool := 0x41 ≤ c.val && c.val ≤ 0x5A

/-- Letters, digits and the underscore of ASCII. -/
def isAsciiWord (c : CodePoint) : Bool :=
  c.isAsciiDigit || c.isAsciiLower || c.isAsciiUpper || c.val == 0x5F

/-- Lower case within ASCII; every other code point stays. -/
def asciiLower (c : CodePoint) : CodePoint :=
  if h : 0x41 ≤ c.val ∧ c.val ≤ 0x5A then ⟨c.val + 0x20, by omega⟩ else c

end CodePoint

namespace Text

def ofChars (cs : List Char) : Text := cs.map CodePoint.ofChar

def ofString (s : String) : Text := ofChars s.toList

/-- The characters of a text without lone surrogates. -/
def toChars? (t : Text) : Option (List Char) := t.mapM CodePoint.toChar?

def toString? (t : Text) : Option String := t.toChars?.map String.ofList

def hasSurrogate (t : Text) : Bool := t.any CodePoint.isSurrogate

/-- Lower case within ASCII. -/
def asciiLower (t : Text) : Text := t.map CodePoint.asciiLower

/-- The decimal digits of a natural number. -/
def ofNat (n : Nat) : Text := ofChars (Nat.toDigits 10 n)

/-- The decimal digits of an integer, with a sign when it is negative. -/
def ofInt : Int → Text
  | .ofNat n => ofNat n
  | .negSucc n => CodePoint.ofChar '-' :: ofNat (n + 1)

end Text

/-- The code point of a character. -/
abbrev chr (c : Char) : CodePoint := CodePoint.ofChar c

/-- The text of a string. -/
abbrev txt (s : String) : Text := Text.ofString s

end ParamSchema
