import ParamSchema.Text.Blank

/-!
Decimal digits of all scripts. Unicode lays them out in runs of ten, so a run is known by its
zero.
-/

namespace ParamSchema

namespace CodePoint

/-- The zeros of the runs of ten decimal digits. -/
def decimalZeros : List Nat :=
  [0x0030, 0x0660, 0x06F0, 0x07C0, 0x0966, 0x09E6, 0x0A66, 0x0AE6, 0x0B66, 0x0BE6, 0x0C66,
   0x0CE6, 0x0D66, 0x0DE6, 0x0E50, 0x0ED0, 0x0F20, 0x1040, 0x1090, 0x17E0, 0x1810, 0x1946,
   0x19D0, 0x1A80, 0x1A90, 0x1B50, 0x1BB0, 0x1C40, 0x1C50, 0xA620, 0xA8D0, 0xA900, 0xA9D0,
   0xA9F0, 0xAA50, 0xABF0, 0xFF10, 0x104A0, 0x10D30, 0x11066, 0x110F0, 0x11136, 0x111D0,
   0x112F0, 0x11450, 0x114D0, 0x11650, 0x116C0, 0x11730, 0x118E0, 0x11950, 0x11C50, 0x11D50,
   0x11DA0, 0x16A60, 0x16AC0, 0x16B50, 0x1D7CE, 0x1D7D8, 0x1D7E2, 0x1D7EC, 0x1D7F6, 0x1E140,
   0x1E2F0, 0x1E950, 0x1FBF0]

/-- The value of a decimal digit of any script. -/
def decimalValue? (c : CodePoint) : Option Nat :=
  (decimalZeros.find? fun z => z ≤ c.val && c.val ≤ z + 9).map (c.val - ·)

/-- A decimal digit of any script as the ASCII digit of the same value, and white space of any
kind as a space. -/
def plain (c : CodePoint) : CodePoint :=
  if c.val < 0x80 then c
  else if c.isBlank then chr ' '
  else match c.decimalValue? with
    | some d => chr (Char.ofNat (0x30 + d))
    | none => c

/-- The value of a digit in a radix up to sixteen, in either letter case. -/
def digitValue? (radix : Nat) (c : CodePoint) : Option Nat :=
  let value? :=
    if c.isAsciiDigit then some (c.val - 0x30)
    else if 0x61 ≤ c.val && c.val ≤ 0x66 then some (c.val - 0x61 + 10)
    else if 0x41 ≤ c.val && c.val ≤ 0x46 then some (c.val - 0x41 + 10)
    else none
  value?.filter (· < radix)

end CodePoint

/-- Digits of all scripts read as ASCII digits. -/
def Text.plain (t : Text) : Text := t.map CodePoint.plain

end ParamSchema
