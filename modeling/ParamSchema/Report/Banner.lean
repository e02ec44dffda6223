import ParamSchema.Declaration.Scan
import ParamSchema.Report.Table

/-!
The description of all declarations for the head of a script: one section for each declaration,
between two banner lines.
-/

namespace ParamSchema.Report

/-- The list of default values. -/
def defaultsList (defaults : Table Text Text) (heading : Text) : Text :=
  if defaults.isEmpty then txt "Default values: (none)\n"
  else heading ++ defaults.flatMap fun (key, value) =>
    txt "  " ++ key ++ txt ": " ++ value ++ txt "\n"

/-- What a section says of the type and the default values of a declaration. -/
def sectionBody (d : Declaration) : Text :=
  let rows := d.rows.getD []
  if !rows.isEmpty then table rows d.defaults
  else if !d.typeText.isEmpty then
    txt "Type definition:\n\x7b\n" ++ d.typeText ++ txt "\n\x7d\n" ++
      defaultsList d.defaults (txt "\nDefault values:\n")
  else
    txt "Type definition: (not specified)\n" ++ defaultsList d.defaults (txt "Default values:\n")

/-- The section of a declaration, with its path relative to the root of the project. -/
def section_ (root : Path) (index : Nat) (d : Declaration) : Text :=
  txt "parseParams call #" ++ Text.ofNat (index + 1) ++ txt " (" ++
    d.path.relativeTo root ++ txt ":" ++ Text.ofInt d.line ++ txt "):\n\n" ++
    sectionBody d

/-- The description of all declarations; without declarations it is empty. -/
def banner (root : Path) (declarations : List Declaration) : Text :=
  if declarations.isEmpty then []
  else
    txt "\n***** PARAMETERS DESCRIPTION *****\n\n" ++
      Text.joinWith (txt "\n\n") (declarations.mapIdx (section_ root)) ++
      txt "\n***** ------------------------- *****"

end ParamSchema.Report
