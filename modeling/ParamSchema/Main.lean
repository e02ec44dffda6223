import ParamSchema.CommandLine.Run

/-!
The program. It first reads all files that the entry can lead to, and then runs the command on
those files.
-/

namespace ParamSchema.CommandLine

/-- The paths that a file can refer to. -/
def mentioned (file : SourceFile) : List Path :=
  (file.specifiers ++ file.sources).flatMap
    (Specifier.candidates Specifier.defaultExtensions file.path.parent)

/-- What is found at a path, if there is a file. -/
def content? (path : Path) : IO (Option Content) := do
  match Text.toString? path.text with
  | none => return none
  | some name =>
    try return some (.readable (← IO.FS.readBinFile name))
    catch
    | .permissionDenied .. => return some .locked
    | _ => return none

/-- Reads pending files, and all files that they can refer to. -/
partial def readFiles (fs : FileSystem) (seen : List Path) : List Path → IO FileSystem
  | [] => return fs
  | path :: pending => do
    if seen.contains path then readFiles fs seen pending
    else match ← content? path with
      | none => readFiles fs (path :: seen) pending
      | some content =>
        let fs := fs.put path content
        let targets := ((SourceFile.read fs path).map mentioned).toOption.getD []
        readFiles fs (path :: seen) (targets ++ pending)

/-- Runs the program on the files of the machine. -/
def start (arguments : List Text) : IO UInt32 := do
  let here := Path.root.enter (txt (← IO.currentDir).toString)
  let fs := FileSystem.empty here
  let fs ← match parse arguments with
    | .ok command => readFiles fs [] [fs.absolute command.entry]
    | .error _ => pure fs
  let outcome := run fs arguments
  IO.print ((Text.toString? outcome.output).getD "")
  return outcome.exit.toUInt32

end ParamSchema.CommandLine

def main (arguments : List String) : IO UInt32 :=
  ParamSchema.CommandLine.start (arguments.map ParamSchema.Text.ofString)
