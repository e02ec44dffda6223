import ParamSchema.Text.Basic

/-!
UTF-8: the bytes of a text, and the characters of bytes. Bytes that are no text are read as one
replacement character for each longest beginning of a character.
-/

namespace ParamSchema.Utf8

/-- The bytes of a code point. A surrogate gets the three bytes of its number. -/
def encodePoint (c : CodePoint) : List UInt8 :=
  let n := c.val
  if n < 0x80 then [n.toUInt8]
  else if n < 0x800 then [(0xC0 + n / 0x40).toUInt8, (0x80 + n % 0x40).toUInt8]
  else if n < 0x10000 then
    [(0xE0 + n / 0x1000).toUInt8, (0x80 + n / 0x40 % 0x40).toUInt8, (0x80 + n % 0x40).toUInt8]
  else
    [(0xF0 + n / 0x40000).toUInt8, (0x80 + n / 0x1000 % 0x40).toUInt8,
     (0x80 + n / 0x40 % 0x40).toUInt8, (0x80 + n % 0x40).toUInt8]

def encode (t : Text) : List UInt8 := t.flatMap encodePoint

/-- The number of bytes of a character. -/
def width (c : Char) : Nat :=
  let n := c.toNat
  if n < 0x80 then 1 else if n < 0x800 then 2 else if n < 0x10000 then 3 else 4

/-- Stands for bytes that are no text. -/
def unknownChar : Char := '�'

/-- What a reader of bytes still owes: nothing, or some more bytes of a character begun. The next
byte has to lie between `low` and `high`. -/
inductive Owed where
  | nothing
  | bytes (count : Nat) (low high : UInt8) (bits : Nat)
  deriving DecidableEq, Repr

/-- The effect of a byte that no character begun before it can use. -/
def start (b : UInt8) : List Char × Owed :=
  if b < 0x80 then ([Char.ofNat b.toNat], .nothing)
  else if 0xC2 ≤ b && b ≤ 0xDF then ([], .bytes 1 0x80 0xBF (b.toNat % 0x20))
  else if b == 0xE0 then ([], .bytes 2 0xA0 0xBF 0)
  else if b == 0xED then ([], .bytes 2 0x80 0x9F 0xD)
  else if 0xE1 ≤ b && b ≤ 0xEF then ([], .bytes 2 0x80 0xBF (b.toNat % 0x10))
  else if b == 0xF0 then ([], .bytes 3 0x90 0xBF 0)
  else if 0xF1 ≤ b && b ≤ 0xF3 then ([], .bytes 3 0x80 0xBF (b.toNat % 0x08))
  else if b == 0xF4 then ([], .bytes 3 0x80 0x8F 4)
  else ([unknownChar], .nothing)

/-- Reads one byte. -/
def step : Owed → UInt8 → List Char × Owed
  | .nothing, b => start b
  | .bytes count low high bits, b =>
    if low ≤ b && b ≤ high then
      let bits := bits * 0x40 + b.toNat % 0x40
      if count ≤ 1 then ([Char.ofNat bits], .nothing) else ([], .bytes (count - 1) 0x80 0xBF bits)
    else
      let (chars, owed) := start b
      (unknownChar :: chars, owed)

/-- Reads bytes behind the beginning of a character. -/
def decodeFrom : Owed → List UInt8 → List Char
  | .nothing, [] => []
  | .bytes .., [] => [unknownChar]
  | owed, b :: rest =>
    let (chars, owed) := step owed b
    chars ++ decodeFrom owed rest

/-- The characters of bytes. -/
def decode (bytes : List UInt8) : List Char := decodeFrom .nothing bytes

end ParamSchema.Utf8
