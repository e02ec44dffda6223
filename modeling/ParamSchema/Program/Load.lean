import ParamSchema.Program.Symbols

/-!
Programs: source files together with all files that they import from or export on behalf of.
-/

namespace ParamSchema

/-- A source file with its imports and exports. -/
structure Module where
  file : SourceFile
  symbols : Symbols

/-- The modules of a program by their paths, in the order in which they were loaded. -/
structure Program where
  modules : Table Path Module

/-- Why a program cannot be loaded. -/
inductive LoadError where
  /-- A file that was asked for cannot be read. -/
  | unreadable (error : ReadError)
  /-- A path that was asked for is the name of no file. -/
  | unnameable (path : Path) (fault : NameFault)
  /-- The name of a module has an escape that is too large. -/
  | overflow (cause : Overflow)
  deriving DecidableEq, Repr

namespace Program

def module? (p : Program) (path : Path) : Option Module := p.modules.get? path

/-- The number of nodes of all files. -/
def weight (p : Program) : Nat := Node.sizes (p.modules.values.map (·.file.tree))

section

variable (fs : FileSystem) (extensions : List Text) (requested : List Path)

/-- Whether a path is passed over: it cannot be read, and it was not asked for. -/
def isSkipped (path : Path) : Bool :=
  match fs.read path with
  | .error (.refused _) => !requested.contains path
  | _ => false

/-- Loads the pending files one after the other, and behind them the files that they need. Of the
files that cannot be read only those asked for count. The number bounds the files to come. -/
def loadFrom : Nat → Table Path Module → List Path → Except LoadError (Table Path Module)
  | 0, loaded, _ => .ok loaded
  | n + 1, loaded, pending =>
    match pending.dropWhile fun path => loaded.has path || isSkipped fs requested path with
    | [] => .ok loaded
    | path :: rest =>
      match SourceFile.read fs path with
      | .error (.refused e) => .error (.unreadable e)
      | .error (.unnameable path fault) => .error (.unnameable path fault)
      | .ok file =>
        match file.symbols fs extensions with
        | .error cause => .error (.overflow cause)
        | .ok symbols => loadFrom n (loaded ++ [(path, ⟨file, symbols⟩)]) (rest ++ symbols.targets)

/-- The program of the files asked for and all that they need. A file has at most two paths. -/
def load : Except LoadError Program :=
  (loadFrom fs extensions requested (2 * fs.files.length + 1) [] requested).map Program.mk

end

end Program

end ParamSchema
