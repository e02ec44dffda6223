import ParamSchema.FileSystem
import ParamSchema.Parse.File
import ParamSchema.Source.Escape
import ParamSchema.Tree.Place

/-!
Source files: a path, the text and its bytes, and the syntax tree over the bytes.
-/

namespace ParamSchema

structure SourceFile where
  path : Path
  text : Text
  bytes : ByteArray
  tree : Node

/-- A node of a source file in its place. -/
structure Site where
  file : SourceFile
  place : Place

namespace SourceFile

/-- The dialect of a file. Only the extensions `.ts`, `.mts` and `.cts` rule out markup. -/
def dialectOf (path : Path) : Parse.Dialect :=
  if [txt ".ts", txt ".mts", txt ".cts"].contains (Text.asciiLower path.extension) then .script
  else .markup

/-- The source file of a path with the given characters. -/
def ofChars (path : Path) (chars : List Char) : SourceFile where
  path := path
  text := Text.ofChars chars
  bytes := (String.ofList chars).toUTF8
  tree := Parse.file (dialectOf path) chars

/-- Reads and parses a source file. -/
def read (fs : FileSystem) (path : Path) : Except ReadFault SourceFile :=
  (fs.readText path).map (ofChars path)

/-- The text between two offsets of bytes; it is empty when they are out of order. -/
def sliceOf (bytes : ByteArray) (start stop : Nat) : Text :=
  Text.ofChars (Utf8.decode (bytes.extract start stop).data.toList)

/-- The text that a node covers. -/
def textOf (file : SourceFile) (n : Node) : Text := sliceOf file.bytes n.start n.stop

/-- The text that a node covers, empty without a node. -/
def textOf? (file : SourceFile) (n : Option Node) : Text := (n.map file.textOf).getD []

def root (file : SourceFile) : Place := .root file.tree

def hasErrors (file : SourceFile) : Bool := file.tree.preorder.any (·.kind == .error)

/-- The line of the first error. -/
def errorLine (file : SourceFile) : Nat :=
  ((file.tree.preorder.find? (·.kind == .error)).map Node.line).getD 1

/-- The sites of all nodes that satisfy `p`, each before those inside it, in source order. -/
def sites (file : SourceFile) (p : Site → Bool) : List Site :=
  (file.root.walk.map (Site.mk file)).filter p

/-- The text between the first and the last code point of a node's text. -/
def inner (file : SourceFile) (n : Node) : Text := ((file.textOf n).drop 1).dropLast

/-- The value of a part of a string literal. -/
def pieceValue (file : SourceFile) (n : Node) : Except Overflow Text :=
  match n.kind with
  | .stringFragment => .ok (file.textOf n)
  | .escapeSequence => Escape.decode (file.textOf n)
  | _ => .ok []

/-- The value of a string literal: its fragments with its escapes decoded. -/
def stringValue (file : SourceFile) (n : Node) : Except Overflow Text :=
  let pieces := n.children.filter Node.isNamed
  if pieces.isEmpty then .ok (file.inner n)
  else return (← pieces.mapM file.pieceValue).flatten

end SourceFile

namespace Site

def node (s : Site) : Node := s.place.node

def text (s : Site) : Text := s.file.textOf s.node

def line (s : Site) : Nat := s.node.line

/-- The part with a role. -/
def child? (s : Site) (role : Role) : Option Site := (s.place.child? role).map (⟨s.file, ·⟩)

/-- The parts that are not mere tokens. -/
def named (s : Site) : List Site := s.place.named.map (⟨s.file, ·⟩)

/-- The parts that are neither mere tokens nor comments. -/
def proper (s : Site) : List Site := s.place.proper.map (⟨s.file, ·⟩)

end Site

end ParamSchema
