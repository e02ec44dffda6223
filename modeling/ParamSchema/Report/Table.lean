import ParamSchema.Row
import ParamSchema.Table

/-!
The table of parameters in Markdown, with a list of descriptions below it.
-/

namespace ParamSchema.Report

/-- A text that stays inside a cell: bars are escaped, and it has one line. -/
def cell (t : Text) : Text :=
  Text.trim (Text.replace (chr '\n') (txt " ") (Text.replace (chr '|') (txt "\\|") t))

/-- Spaces. -/
def spaces (n : Nat) : Text := List.replicate n (chr ' ')

/-- A text with spaces behind it. -/
def padded (width : Nat) (t : Text) : Text := t ++ spaces (width - t.length)

/-- A text in the middle of spaces, rather to the left. -/
def centred (width : Nat) (t : Text) : Text :=
  let left := (width - t.length) / 2
  spaces left ++ t ++ spaces (width - t.length - left)

/-- The widths of the columns. -/
structure Widths where
  name : Nat
  type : Nat
  required : Nat
  default : Nat
  deriving DecidableEq, Repr

/-- The texts of a line of the table. -/
structure Cells where
  name : Text
  type : Text
  required : Text
  default : Text
  deriving DecidableEq, Repr

/-- The headings of the columns. -/
def headings : Cells := ⟨txt "Name", txt "Type", txt "Required", txt "Default"⟩

/-- The cells of a row. Only default values of the code are shown. -/
def cellsOf (defaults : Table Text Text) (row : Row) : Cells where
  name := cell row.name
  type := cell row.type
  required := if row.optional then [] else txt "x"
  default := cell ((defaults.get? row.name).getD [])

/-- Widths in which a line has room. -/
def Widths.fit (w : Widths) (c : Cells) : Widths where
  name := max w.name c.name.length
  type := max w.type c.type.length
  required := max w.required c.required.length
  default := max w.default c.default.length

/-- Widths in which all lines have room. -/
def widths (lines : List Cells) : Widths :=
  lines.foldl Widths.fit (Widths.fit ⟨0, 0, 0, 0⟩ headings)

/-- A line of the table. -/
def line (w : Widths) (c : Cells) : Text :=
  txt "| " ++ padded w.name c.name ++ txt " | " ++ centred w.type c.type ++ txt " | " ++
    centred w.required c.required ++ txt " | " ++ centred w.default c.default ++ txt " |"

/-- Dashes. -/
def dashes (n : Nat) : Text := List.replicate n (chr '-')

/-- The line between the headings and the rows. -/
def separator (w : Widths) : Text :=
  txt "|:" ++ dashes w.name ++ txt "-|:" ++ dashes w.type ++ txt ":|:" ++ dashes w.required ++
    txt ":|:" ++ dashes w.default ++ txt ":|"

/-- The line of a row in the list of descriptions, if there is something to say. A default value of
the code takes the place of the example. -/
def description? (defaults : Table Text Text) (row : Row) : Option Text :=
  let example_ := (defaults.get? row.name).getD (row.example_.getD [])
  let values := row.values.getD []
  if row.description.isEmpty && example_.isEmpty && values.isEmpty then none
  else
    let examplePart :=
      if example_.isEmpty then [] else txt " Example: \x60" ++ cell example_ ++ txt "\x60."
    let valuesPart :=
      if values.isEmpty then []
      else txt " Can accept values: \x60" ++ Text.joinWith (txt ", ") values ++ txt "\x60."
    some (Text.trim
      (txt "- **" ++ cell row.name ++ txt "**: " ++ row.description ++ examplePart ++ valuesPart))

/-- The lines of the table. -/
def tableLines (rows : List Row) (defaults : Table Text Text) : List Text :=
  let cells := rows.map (cellsOf defaults)
  let w := widths cells
  line w headings :: separator w :: cells.map (line w)

/-- The table of parameters and their descriptions. -/
def table (rows : List Row) (defaults : Table Text Text) : Text :=
  let lines := tableLines rows defaults
  -- a table without rows still ends its separator with a line feed
  let body := Text.joinWith (txt "\n") (if rows.isEmpty then lines ++ [[]] else lines)
  let descriptions := rows.filterMap (description? defaults)
  txt "## Params\n\n" ++ body ++
    if descriptions.isEmpty then []
    else txt "\n\n### Params description\n\n" ++ Text.joinWith (txt "\n") descriptions

end ParamSchema.Report
