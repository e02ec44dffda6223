import ParamSchema.Modules.Specifier
import ParamSchema.Source.File
import ParamSchema.Table

/-!
What a file imports from other files and what it exports on their behalf.
-/

namespace ParamSchema

/-- What an import takes from another file. -/
inductive Imported where
  /-- The whole module as a namespace. -/
  | whole
  /-- The default export. -/
  | standard
  | named (name : Text)
  deriving DecidableEq, Repr

/-- A local name that stands for something in another file. -/
structure Import where
  target : Path
  what : Imported
  deriving DecidableEq, Repr

/-- An exported name: a local name of this file, or a name of another file. -/
structure Export where
  target : Option Path
  name : Text
  deriving DecidableEq, Repr

/-- The imports and exports of a file. Of two entries for a name the last one counts. -/
structure Symbols where
  imports : Table Text Import
  exports : Table Text Export
  /-- The files of which everything is exported. -/
  stars : List Path

namespace Imported

/-- The export with a name; the name `default` is that of the default export. -/
def ofName (name : Text) : Imported := if name == txt "default" then .standard else .named name

end Imported

namespace Symbols

/-- The files that a file needs, in the order in which they are loaded. -/
def targets (s : Symbols) : List Path :=
  s.imports.values.map (·.target) ++ s.exports.values.filterMap (·.target) ++ s.stars

/-- The number of entries. -/
def size (s : Symbols) : Nat := s.imports.length + s.exports.length + s.stars.length

end Symbols

namespace SourceFile

/-- The parts of a node with a kind. -/
def partsOf (kind : Kind) (n : Node) : List Node := n.children.filter (·.kind == kind)

/-- The names that a part of an import clause binds. -/
def clauseImports (file : SourceFile) (target : Path) (part : Node) : List (Text × Import) :=
  match part.kind with
  | .identifier => [(file.textOf part, ⟨target, .standard⟩)]
  | .namespaceImport =>
    ((partsOf .identifier part).take 1).map fun n => (file.textOf n, ⟨target, .whole⟩)
  | .namedImports =>
    (partsOf .importSpecifier part).map fun item =>
      let name := file.textOf? (item.child? .name)
      (((item.child? .newName).map file.textOf).getD name, ⟨target, .ofName name⟩)
  | _ => []

/-- The names that an export clause exports. -/
def clauseExports (file : SourceFile) (target : Option Path) (clause : Node) :
    List (Text × Export) :=
  (partsOf .exportSpecifier clause).map fun item =>
    let name := file.textOf? (item.child? .name)
    (((item.child? .newName).map file.textOf).getD name, ⟨target, name⟩)

/-- The modules that the statements of a file name as their sources. -/
def sources (file : SourceFile) : List Text :=
  file.tree.children.filterMap fun statement =>
    (statement.child? .source).bind fun n => (file.stringValue n).toOption

section

variable (fs : FileSystem) (extensions : List Text) (file : SourceFile)

/-- The file that the source of a statement stands for. -/
def target? (source : Option Node) : Except Overflow (Option Path) :=
  match source with
  | none => return none
  | some n =>
    if n.kind == .string then
      return Specifier.resolve fs extensions file.path.parent (← file.stringValue n)
    else return none

/-- The names that a statement imports. -/
def statementImports (statement : Node) : Except Overflow (List (Text × Import)) := do
  if statement.kind != .importStatement then return []
  match ← file.target? fs extensions (statement.child? .source) with
  | none => return []
  | some target =>
    return ((partsOf .importClause statement).flatMap Node.children).flatMap
      (file.clauseImports target)

/-- The names that a statement exports, and the file of which it exports everything. A statement
whose source is no file exports nothing. -/
def statementExports (statement : Node) :
    Except Overflow (List (Text × Export) × List Path) := do
  if statement.kind != .exportStatement then return ([], [])
  let source := statement.child? .source
  let target ← file.target? fs extensions source
  if source.isSome && target.isNone then return ([], [])
  match partsOf .exportClause statement with
  | clause :: _ => return (file.clauseExports target clause, [])
  | [] =>
    if statement.children.any (·.kind == .namespaceExport) then return ([], [])
    else return ([], target.toList)

/-- The imports and exports of a file. -/
def symbols : Except Overflow Symbols := do
  let statements := file.tree.children
  let imports ← statements.mapM (file.statementImports fs extensions)
  let exports ← statements.mapM (file.statementExports fs extensions)
  return ⟨Table.ofList imports.flatten, Table.ofList (exports.flatMap (·.1)), exports.flatMap (·.2)⟩

end

end SourceFile

end ParamSchema
