import ParamSchema.Program.Load
import ParamSchema.Search

/-!
The declarations of a name: those of the innermost block around it that has any, else those that
the file imports. Exports are followed from file to file; every pair of a file and a name is looked
at once.
-/

namespace ParamSchema

/-- A name can mean a type or a value. -/
inductive Meaning where
  | type
  | value
  deriving DecidableEq, Repr

namespace Place

/-- Whether names declared in a node are known throughout it. -/
def isScope (p : Place) : Bool := p.kind == .program || p.kind == .statementBlock

/-- The declaration of a statement, which may be exported. -/
def declaration (p : Place) : Place :=
  if p.kind == .exportStatement then (p.child? .declaration).getD p else p

end Place

namespace SourceFile

/-- The declarations in a place that give names a meaning, one for each name. -/
def declarators (meaning : Meaning) (p : Place) : List Place :=
  match meaning, p.kind with
  | .type, .typeAlias | .type, .interfaceDeclaration | .type, .enumDeclaration => [p]
  | .value, .lexicalDeclaration | .value, .variableDeclaration =>
    p.named.filter (·.kind == .variableDeclarator)
  | _, _ => []

/-- The declarations of a name directly in a scope, in source order. -/
def declarationsIn (file : SourceFile) (meaning : Meaning) (name : Text) (scope : Place) :
    List Site :=
  ((scope.named.map Place.declaration).flatMap (declarators meaning)).filter
    (fun p => file.textOf? (p.node.child? .name) == name) |>.map (⟨file, ·⟩)

/-- The declarations of a name at the top of a file. -/
def topDeclarations (file : SourceFile) (meaning : Meaning) (name : Text) : List Site :=
  file.declarationsIn meaning name file.root

end SourceFile

namespace Program

variable (p : Program)

/-- A name that a file exports. -/
abbrev ExportedName := Path × Text

/-- The local name of an exported name, unless another file has to be asked. -/
def localName? (m : Module) (name : Text) : Option Text :=
  match m.symbols.exports.get? name with
  | none => some name
  | some ⟨none, name⟩ => some name
  | some ⟨some _, _⟩ => none

/-- The declarations that a file itself has for an exported name. -/
def exportedHere (meaning : Meaning) (e : ExportedName) : List Site :=
  match p.module? e.1 with
  | none => []
  | some m => ((localName? m e.2).map (m.file.topDeclarations meaning)).getD []

/-- Where else to look for an exported name: in the file on whose behalf it is exported, in the
file that it is imported from, or in all files of which everything is exported. -/
def exportedElsewhere (e : ExportedName) : List ExportedName :=
  match p.module? e.1 with
  | none => []
  | some m =>
    match m.symbols.exports.get? e.2 with
    | some ⟨some target, name⟩ => [(target, name)]
    | entry =>
      let name := (entry.map Export.name).getD e.2
      match m.symbols.imports.get? name with
      | some ⟨target, .named imported⟩ => [(target, imported)]
      | _ => m.symbols.stars.map (·, name)

/-- A bound for the pairs of files and names that exports lead to. -/
def exportBound : Nat :=
  let entries := p.modules.values.foldl (fun n m => n + m.symbols.size) 0
  (entries + 1) * (entries + 1)

/-- The declarations of an exported name: those of the first file that has any. -/
def exported (meaning : Meaning) (e : ExportedName) : List Site :=
  ((Search.once p.exportedElsewhere p.exportBound [] [e]).map (p.exportedHere meaning)).find?
    (!·.isEmpty) |>.getD []

/-- The declarations that an import of a file leads to. -/
def imported (meaning : Meaning) (path : Path) (name : Text) : List Site :=
  match (p.module? path).bind (·.symbols.imports.get? name) with
  | some ⟨target, .named imported⟩ => p.exported meaning (target, imported)
  | _ => []

/-- The declarations of a name at a site. -/
def lookup (meaning : Meaning) (at_ : Site) (name : Text) : List Site :=
  let scopes := at_.place.around.filter Place.isScope
  match (scopes.map (at_.file.declarationsIn meaning name)).find? (!·.isEmpty) with
  | some found => found
  | none => p.imported meaning at_.file.path name

/-- The declarations of a name behind the name of a namespace. -/
def qualified (meaning : Meaning) (path : Path) (name : Text) : List Site :=
  match Text.cutFirst? (txt ".") name with
  | none => []
  | some (space, name) =>
    if name.contains (chr '.') then []
    else match (p.module? path).bind (·.symbols.imports.get? space) with
      | some ⟨target, .whole⟩ => p.exported meaning (target, name)
      | _ => []

end Program

end ParamSchema
