import ParamSchema.Modules.Specifier
import ParamSchema.Search
import ParamSchema.Source.File

/-!
The graph of local imports: the specifiers of a file, the files that they stand for, and the files
that can be reached from an entry, in the order of a depth-first search.
-/

namespace ParamSchema

namespace SourceFile

/-- The specifier that a string literal spells, between its quotes. -/
def specifierOf? (file : SourceFile) (source : Option Node) : Option Text :=
  match source with
  | some n => if n.kind == .string then some (file.inner n) else none
  | none => none

/-- The module that a clause with `require` names. -/
def requiredSource? (clause : Node) : Option Node :=
  (clause.child? .source).orElse fun _ => clause.children.find? (·.kind == .string)

/-- The module that an import statement names, itself or in its last clause with `require`. -/
def importSource? (n : Node) : Option Node :=
  match n.child? .source with
  | some source => some source
  | none => (n.children.filter (·.kind == .importRequireClause)).getLast?.bind requiredSource?

/-- The first argument of a call, comments included. -/
def firstArgument? (call : Node) : Option Node :=
  (call.child? .arguments).bind (·.children.find? Node.isNamed)

/-- Whether a call loads a module. -/
def loadsModule (file : SourceFile) (call : Node) : Bool :=
  match call.child? .function with
  | some callee =>
    callee.kind == .importCallee ||
      (callee.kind == .identifier && file.textOf callee == txt "require")
  | none => false

/-- The specifier that a node contributes to the graph of imports. -/
def nodeSpecifier? (file : SourceFile) (n : Node) : Option Text :=
  match n.kind with
  | .importStatement => file.specifierOf? (importSource? n)
  | .callExpression => if file.loadsModule n then file.specifierOf? (firstArgument? n) else none
  | _ => none

/-- The specifiers of all imports and loading calls of a file, in source order. Exports from other
modules do not count. -/
def specifiers (file : SourceFile) : List Text := file.tree.preorder.filterMap file.nodeSpecifier?

/-- The files that a file refers to, in source order. -/
def references (fs : FileSystem) (extensions : List Text) (file : SourceFile) : List Path :=
  file.specifiers.filterMap (Specifier.resolve fs extensions file.path.parent)

end SourceFile

namespace ModuleGraph

/-- The files that a path refers to; what cannot be read refers to none. -/
def successors (fs : FileSystem) (extensions : List Text) (path : Path) : List Path :=
  match SourceFile.read fs path with
  | .ok file => file.references fs extensions
  | .error _ => []

/-- The entry and all files that it needs through local imports, each once, in the order in which a
depth-first search meets them. A file that cannot be read is left out. -/
def collect (fs : FileSystem) (extensions : List Text) (entry : Path) : List Path :=
  (Search.once (successors fs extensions) (fs.files.length + 1) [] [entry]).filter fs.isReadable

end ModuleGraph

end ParamSchema
