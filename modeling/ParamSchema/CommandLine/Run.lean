import ParamSchema.CommandLine.Arguments
import ParamSchema.CommandLine.Help
import ParamSchema.Service

/-!
Running a command on a file system: what it prints and how it ends.
-/

namespace ParamSchema.CommandLine

/-- How a run ends and what it prints. -/
structure Outcome where
  exit : Nat
  output : Text
  deriving DecidableEq, Repr

def rowJson (row : Row) : Json :=
  .object
    [(txt "name", .text row.name), (txt "type_str", .text row.type),
     (txt "optional", .boolean row.optional), (txt "description", .text row.description),
     (txt "example", (row.example_.map Json.text).getD .null),
     (txt "accepts_values", (row.values.map Payload.textList).getD .null)]

def declarationJson (d : Declaration) : Json :=
  .object
    [(txt "file_path", .text d.path.text), (txt "line", .integer d.line),
     (txt "fields", (d.rows.map fun rows => Json.list (rows.map rowJson)).getD .null),
     (txt "type_info", .text d.typeText),
     (txt "defaults", .object (d.defaults.map fun (key, value) => (key, .text value)))]

def extractionJson (e : Extraction) : Json :=
  .object
    [(txt "entry", .text e.entry.text), (txt "calls", .list (e.declarations.map declarationJson))]

/-- A text as a line. -/
def printed (t : Text) : Outcome := ⟨0, t ++ txt "\n"⟩

/-- Runs a command. A payload that cannot be written ends the run with a failure. -/
def runCommand (fs : FileSystem) : Command → Outcome
  | .analyze entry =>
    printed (extractionJson (Extraction.ofEntry fs (fs.absolute entry))).indented
  | .docs entry root =>
    let extraction := Extraction.ofEntry fs (fs.absolute entry)
    printed (Report.banner (Service.projectRoot fs root) extraction.declarations)
  | .encode entry options =>
    let extraction := Extraction.ofEntry fs (fs.absolute entry)
    match (Payload.ofDeclarations extraction.declarations options).encoded? with
    | some text => printed text
    | none => ⟨1, []⟩
  | .files entry =>
    let files := ModuleGraph.collect fs Specifier.defaultExtensions (fs.absolute entry)
    ⟨0, files.flatMap fun path => path.text ++ txt "\n"⟩

/-- Runs the program with arguments. -/
def run (fs : FileSystem) (arguments : List Text) : Outcome :=
  match parse arguments with
  | .ok command => runCommand fs command
  | .error (.help command) => ⟨0, helpText command⟩
  | .error .invalid => ⟨2, []⟩

end ParamSchema.CommandLine
