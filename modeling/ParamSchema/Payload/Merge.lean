import ParamSchema.Declaration.Scan

/-!
The payload: the parameters of all declarations in one list. A parameter that is declared again
keeps its place and takes the last declaration. Rows for keys that are not named do not count.
-/

namespace ParamSchema

/-- A parameter as the payload records it. -/
structure Parameter where
  name : Text
  type : Text
  required : Bool
  default : Option Text
  values : Option (List Text)
  description : Option Text
  deriving DecidableEq, Repr

structure Payload where
  isParametersRequired : Bool
  parameters : List Parameter
  hostname : Option Text
  scriptId : Option Int
  scriptName : Option Text
  deriving DecidableEq, Repr

namespace Payload

/-- What the payload records besides the parameters. -/
structure Options where
  hostname : Option Text
  scriptId : Option Int
  scriptName : Option Text
  deriving DecidableEq, Repr

/-- A text without white space and one pair of equal quotes around it. -/
def withoutQuotes (t : Text) : Text :=
  let t := Text.trim t
  match t.head? with
  | none => t
  | some c =>
    if 2 ≤ t.length && t.getLast? == some c && (c == chr '\x27' || c == chr '\x22') then
      (t.drop 1).dropLast
    else t

/-- Whether something without a line feed is left behind some white space. -/
def hasEnd (t : Text) : Bool :=
  (List.range t.length).any fun i =>
    (t.take i).all CodePoint.isBlank && !(t.drop i).contains (chr '\n')

/-- Whether a text has a colon with something on either side; white space behind the colon may
have line feeds. -/
def hasColonInside (t : Text) : Bool :=
  (List.range t.length).any fun i =>
    1 ≤ i && t[i]? == some (chr ':') && !(t.take i).contains (chr '\n') && hasEnd (t.drop (i + 1))

/-- Whether a name is that of a row for keys that are not named: a text with a colon between square
brackets. One line feed may follow it. -/
def isIndexName (name : Text) : Bool :=
  let name := if name.getLast? == some (chr '\n') then name.dropLast else name
  2 ≤ name.length && name.head? == some (chr '[') && name.getLast? == some (chr ']') &&
    hasColonInside ((name.drop 1).dropLast)

/-- A text, if it is not empty. -/
def nonempty? (t : Option Text) : Option Text := t.filter (!·.isEmpty)

/-- The parameter of a row. -/
def parameter (defaults : Table Text Text) (row : Row) : Parameter where
  name := row.name
  type := row.type
  required := !row.optional
  default := (defaults.get? row.name).map withoutQuotes
  values := row.values.bind Row.nonempty
  description := nonempty? (some row.description)

/-- The rows of a declaration that count. -/
def keptRows (d : Declaration) : List Row := (d.rows.getD []).filter (!isIndexName ·.name)

/-- The parameters of the declarations by name, in their order. -/
def entries (declarations : List Declaration) : List (Text × Parameter) :=
  declarations.flatMap fun d => (keptRows d).map fun row => (row.name, parameter d.defaults row)

/-- The payload of declarations. -/
def ofDeclarations (declarations : List Declaration) (options : Options) : Payload where
  isParametersRequired := (declarations.flatMap keptRows).any (!·.optional)
  parameters := (Table.ofList (entries declarations)).values
  hostname := nonempty? options.hostname
  scriptId := options.scriptId
  scriptName := nonempty? options.scriptName

end Payload

end ParamSchema
