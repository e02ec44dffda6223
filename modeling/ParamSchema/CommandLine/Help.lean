import ParamSchema.Text.Basic

/-!
The help texts of the command line.
-/

namespace ParamSchema.CommandLine

/-- Lines with a line feed behind each. -/
def unlines (lines : List String) : Text := lines.flatMap fun l => txt l ++ txt "\n"

def generalHelp : Text := unlines [
  "usage: paramscan [-h] [--log-level LOG_LEVEL]",
  "                 \x7banalyze,docs,encode,files\x7d ...",
  "",
  "positional arguments:",
  "  \x7banalyze,docs,encode,files\x7d",
  "    analyze             Extract parameter declarations and print them as JSON",
  "    docs                Print the parameters description banner",
  "    encode              Print the base64 parameters record",
  "    files               List the entry script and its local imports",
  "",
  "options:",
  "  -h, --help            show this help message and exit",
  "  --log-level LOG_LEVEL"]

def docsHelp : Text := unlines [
  "usage: paramscan docs [-h] [--root ROOT] entry",
  "",
  "positional arguments:",
  "  entry        Path to the entry script",
  "",
  "options:",
  "  -h, --help   show this help message and exit",
  "  --root ROOT  Project root used for relative paths"]

def encodeHelp : Text := unlines [
  "usage: paramscan encode [-h] [--hostname HOSTNAME] [--script-id SCRIPT_ID]",
  "                        [--script-name SCRIPT_NAME]",
  "                        entry",
  "",
  "positional arguments:",
  "  entry                 Path to the entry script",
  "",
  "options:",
  "  -h, --help            show this help message and exit",
  "  --hostname HOSTNAME",
  "  --script-id SCRIPT_ID",
  "  --script-name SCRIPT_NAME"]

/-- The help on a command without options of its own. -/
def plainHelp (command : Text) : Text :=
  txt "usage: paramscan " ++ command ++ unlines [
    " [-h] entry",
    "",
    "positional arguments:",
    "  entry       Path to the entry script",
    "",
    "options:",
    "  -h, --help  show this help message and exit"]

/-- The help on a command, or in general. -/
def helpText : Option Text → Text
  | none => generalHelp
  | some command =>
    if command == txt "docs" then docsHelp
    else if command == txt "encode" then encodeHelp
    else plainHelp command

end ParamSchema.CommandLine
