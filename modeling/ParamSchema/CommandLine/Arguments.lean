import ParamSchema.Numeral
import ParamSchema.Payload.Merge

/-!
The arguments of the command line. Options may stand before and behind the entry, may be shortened
as long as they stay unambiguous, and take their value from the next argument or behind an equals
sign. Behind `--` nothing is an option.
-/

namespace ParamSchema.CommandLine

/-- What the program is asked to do. -/
inductive Command where
  | analyze (entry : Text)
  | docs (entry : Text) (root : Option Text)
  | encode (entry : Text) (options : Payload.Options)
  | files (entry : Text)
  deriving DecidableEq, Repr

/-- The file that a command starts from. -/
def Command.entry : Command → Text
  | .analyze entry => entry
  | .docs entry _ => entry
  | .encode entry _ => entry
  | .files entry => entry

/-- Why arguments are no command. -/
inductive Stop where
  /-- Help was asked for, on a command or in general. -/
  | help (command : Option Text)
  | invalid
  deriving DecidableEq, Repr

/-- What an argument is. -/
inductive Item where
  | value (text : Text)
  /-- An option with the value behind its equals sign. -/
  | option (name : Text) (value : Option Text)
  | unknown
  /-- The mark behind which nothing is an option. -/
  | dashes
  deriving DecidableEq, Repr

/-- A number with a minus sign, which is no option. -/
def isNegativeNumber (t : Text) : Bool :=
  match Text.after? (txt "-") t with
  | none => false
  | some t =>
    let isDigit (c : CodePoint) := c.decimalValue?.isSome
    match Text.cutFirst? (txt ".") t with
    | none => !t.isEmpty && t.all isDigit
    | some (whole, fraction) => !fraction.isEmpty && (whole ++ fraction).all isDigit

/-- The name and the value of an argument with an equals sign. -/
def splitValue (t : Text) : Text × Option Text :=
  match Text.cutFirst? (txt "=") t with
  | some (name, value) => (name, some value)
  | none => (t, none)

/-- What an argument is for someone who knows some options; an ambiguous short form is refused. -/
def classify (options : List Text) (t : Text) : Except Stop Item :=
  let (name, value) := splitValue t
  if !Text.startsWith t (txt "-") || t.length == 1 then .ok (.value t)
  else if options.contains t then .ok (.option t none)
  else if options.contains name then .ok (.option name value)
  else
    let plain : Item :=
      if isNegativeNumber t || t.contains (chr ' ') then .value t else .unknown
    if Text.startsWith t (txt "--") then
      match options.filter (Text.startsWith · name) with
      | [] => .ok plain
      | [option] => .ok (.option option value)
      | _ => .error .invalid
    else if options.contains (t.take 2) then .ok (.option (t.take 2) (some (t.drop 2)))
    else .ok plain

/-- What all arguments are. -/
def items (options : List Text) : List Text → Except Stop (List Item)
  | [] => return []
  | t :: rest => do
    if t == txt "--" then return .dashes :: rest.map .value
    let item ← classify options t
    return item :: (← items options rest)

def shortHelp : Text := txt "-h"

def longHelp : Text := txt "--help"

def isHelp (name : Text) : Bool := name == shortHelp || name == longHelp

/-- The effect of asking for help on a command. A value is out of place, unless it only repeats the
letter of the short form. -/
def help (command : Option Text) (name : Text) (value : Option Text) : Stop :=
  match value with
  | none => .help command
  | some letters =>
    if name == shortHelp && letters.all (· == chr 'h') then .help command else .invalid

/-- The arguments of a command, read so far. -/
structure Given where
  entry : Option Text
  options : Table Text Text
  /-- Whether something was out of place. -/
  excess : Bool
  /-- Whether the entry was the last item. -/
  justRead : Bool
  deriving DecidableEq, Repr

def Given.none : Given := ⟨.none, [], false, false⟩

/-- Gives an option a value. -/
def Given.store (given : Given) (name value : Text) : Given :=
  { given with options := given.options.put name value, justRead := false }

/-- Reads the items of a command. `check` refuses bad values of options at once; what is out of
place is refused at the end. -/
def readItems (command : Text) (check : Text → Text → Bool) : Given → List Item → Except Stop Given
  | given, [] => .ok given
  | given, .value t :: rest =>
    if given.entry.isNone then
      readItems command check { given with entry := some t, justRead := true } rest
    else readItems command check { given with excess := true, justRead := false } rest
  | given, .unknown :: rest =>
    readItems command check { given with excess := true, justRead := false } rest
  | given, .dashes :: rest =>
    let placed := given.entry.isNone || given.justRead
    readItems command check { given with excess := given.excess || !placed, justRead := false } rest
  | given, .option name (some t) :: rest =>
    if isHelp name then .error (help (some command) name (some t))
    else if check name t then readItems command check (given.store name t) rest
    else .error .invalid
  | given, .option name none :: .value t :: rest =>
    if isHelp name then .error (.help (some command))
    else if check name t then readItems command check (given.store name t) rest
    else .error .invalid
  | _, .option name none :: _ =>
    if isHelp name then .error (.help (some command)) else .error .invalid

/-- The options of a command, besides help. -/
def commandOptions : List (Text × List Text) :=
  [(txt "analyze", []), (txt "docs", [txt "--root"]),
   (txt "encode", [txt "--hostname", txt "--script-id", txt "--script-name"]), (txt "files", [])]

/-- Whether an option can have a value. -/
def checkOption (name value : Text) : Bool :=
  name != txt "--script-id" || (Numeral.integer? 10 value).isSome

/-- The command with a name, once its arguments are read. -/
def command? (name entry : Text) (options : Table Text Text) : Option Command :=
  if name == txt "analyze" then some (.analyze entry)
  else if name == txt "docs" then some (.docs entry (options.get? (txt "--root")))
  else if name == txt "encode" then
    some (.encode entry
      { hostname := options.get? (txt "--hostname")
        scriptId := (options.get? (txt "--script-id")).bind (Numeral.integer? 10)
        scriptName := options.get? (txt "--script-name") })
  else if name == txt "files" then some (.files entry)
  else none

/-- Reads the arguments of a command; `excess` says that something was out of place before. -/
def readCommand (excess : Bool) (name : Text) (arguments : List Text) : Except Stop Command := do
  match commandOptions.lookup name with
  | none => throw .invalid
  | some options =>
    let items ← items ([shortHelp, longHelp] ++ options) arguments
    let given ← readItems name checkOption Given.none items
    match given.entry.bind (command? name · given.options) with
    | some command => if excess || given.excess then throw .invalid else return command
    | none => throw .invalid

def levelOption : Text := txt "--log-level"

/-- Reads general options and then a command; the items are those of the arguments. -/
def readGeneral (excess : Bool) : List Item → List Text → Except Stop Command
  | .value name :: _, _ :: arguments => readCommand excess name arguments
  | .option name (some value) :: rest, _ :: arguments =>
    if isHelp name then .error (help none name (some value)) else readGeneral excess rest arguments
  | .option name none :: .value _ :: rest, _ :: _ :: arguments =>
    if isHelp name then .error (.help none) else readGeneral excess rest arguments
  | .option name none :: _, _ =>
    if isHelp name then .error (.help none) else .error .invalid
  | .unknown :: rest, _ :: arguments => readGeneral true rest arguments
  | _, _ => .error .invalid

/-- The command that arguments ask for. -/
def parse (arguments : List Text) : Except Stop Command := do
  readGeneral false (← items [shortHelp, longHelp, levelOption] arguments) arguments

end ParamSchema.CommandLine
