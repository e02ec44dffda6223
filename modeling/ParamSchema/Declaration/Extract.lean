import ParamSchema.Declaration.Scan
import ParamSchema.Modules.Graph

/-!
The declarations of an entry file and of all files that it imports. A file that cannot be read or
scanned is left out.
-/

namespace ParamSchema

/-- The declarations found from an entry. -/
structure Extraction where
  entry : Path
  declarations : List Declaration
  deriving DecidableEq, Repr

namespace Extraction

/-- A program over the given files, or only their texts when it cannot be loaded. -/
def resolverFor (fs : FileSystem) (paths : List Path) : Resolver :=
  match Program.load fs Specifier.defaultExtensions paths with
  | .ok p => .program p
  | .error _ => .textual

/-- The source file of a path, from the program when it is there. -/
def sourceFile? (fs : FileSystem) (r : Resolver) (path : Path) : Except ReadFault SourceFile :=
  let loaded := match r with
    | .textual => none
    | .program p => (p.module? path).map (·.file)
  match loaded with
  | some file => .ok file
  | none => SourceFile.read fs path

/-- The declarations of a file; none when it cannot be read or scanned. -/
def declarationsOf (fs : FileSystem) (r : Resolver) (path : Path) : List Declaration :=
  match sourceFile? fs r path with
  | .error _ => []
  | .ok file =>
    match Declaration.scan r Declaration.defaultFunction TypeTag.defaultReach file with
    | .ok declarations => declarations
    | .error _ => []

/-- The declarations of an entry file and of the files that it imports, file by file. -/
def ofEntry (fs : FileSystem) (entry : Path) : Extraction :=
  let files := ModuleGraph.collect fs Specifier.defaultExtensions entry
  ⟨entry, files.flatMap (declarationsOf fs (resolverFor fs files))⟩

end Extraction

end ParamSchema
