import ParamSchema.FileSystem

/-!
Module specifiers: the names by which files refer to each other. Only those that begin with a
point are local; one without an extension is looked for with each known extension, first as a file
and then as the index of a directory.
-/

namespace ParamSchema.Specifier

/-- The extensions that are tried, in this order. -/
def defaultExtensions : List Text :=
  [txt ".ts", txt ".tsx", txt ".js", txt ".jsx", txt ".mjs", txt ".cjs"]

def isLocal (specifier : Text) : Bool := Text.startsWith specifier (txt ".")

/-- The paths that a specifier may stand for, in the order in which they are tried. -/
def candidates (extensions : List Text) (directory : Path) (specifier : Text) : List Path :=
  if !isLocal specifier then []
  else
    let path := directory.enter specifier
    if path.extension.isEmpty then
      extensions.map path.withExtension ++ extensions.map fun e => path.entry (txt "index" ++ e)
    else [path]

/-- The file that a specifier stands for in a directory. -/
def resolve (fs : FileSystem) (extensions : List Text) (directory : Path) (specifier : Text) :
    Option Path :=
  (candidates extensions directory specifier).find? fs.isFile

end ParamSchema.Specifier
