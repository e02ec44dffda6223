import ParamSchema.Text.Basic

/-!
White space as Unicode counts it, and texts without the white space around them.
-/

namespace ParamSchema

/-- White space: the separators of Unicode together with the control characters that break lines
or columns. -/
def CodePoint.isBlank (c : CodePoint) : Bool :=
  (0x09 ≤ c.val && c.val ≤ 0x0D) || (0x1C ≤ c.val && c.val ≤ 0x20) || c.val == 0x85 ||
  c.val == 0xA0 || c.val == 0x1680 || (0x2000 ≤ c.val && c.val ≤ 0x200A) || c.val == 0x2028 ||
  c.val == 0x2029 || c.val == 0x202F || c.val == 0x205F || c.val == 0x3000

namespace Text

/-- Drops the longest end of a list whose members all satisfy `p`. -/
def dropEndWhile {α : Type} (p : α → Bool) (l : List α) : List α :=
  (l.reverse.dropWhile p).reverse

/-- A text without the white space before it. -/
def trimStart (t : Text) : Text := t.dropWhile CodePoint.isBlank

/-- A text without the white space after it. -/
def trimEnd (t : Text) : Text := dropEndWhile CodePoint.isBlank t

/-- A text without the white space around it. -/
def trim (t : Text) : Text := trimEnd (trimStart t)

end Text

end ParamSchema
