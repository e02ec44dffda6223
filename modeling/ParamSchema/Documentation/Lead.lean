import ParamSchema.Source.File

/-!
What precedes a declaration, and the text of its documentation comment. The comment is found in one
of two ways: as the last comment node right before the declaration, or by its marks in the text
before the declaration.
-/

namespace ParamSchema

/-- The bytes of a file with the part before a declaration. -/
structure Lead where
  bytes : ByteArray
  /-- The end of what precedes the declaration, comments apart. -/
  fullStart : Nat
  /-- The start of the declaration. -/
  start : Nat
  /-- Where the comments directly before the declaration start and stop, in source order. -/
  comments : List (Nat × Nat)

namespace Lead

/-- What precedes the node of a place. -/
def ofSite (s : Site) : Lead :=
  let before := s.place.before
  let comments := before.takeWhile Node.isComment
  let fullStart := match before.dropWhile Node.isComment, s.place.parent? with
    | n :: _, _ => n.stop
    | [], some parent => parent.node.start
    | [], none => 0
  ⟨s.file.bytes, fullStart, s.node.start, (comments.map fun n => (n.start, n.stop)).reverse⟩

def isBlankByte (b : UInt8) : Bool := b == 0x20 || (0x09 ≤ b && b ≤ 0x0D)

/-- Whether nothing but white space of ASCII lies between two offsets. -/
def isBlankBetween (lead : Lead) (start stop : Nat) : Bool :=
  (lead.bytes.extract start stop).data.toList.all isBlankByte

/-- A line of a comment without the star before it and the white space around it. -/
def undecoratedLine (line : Text) : Text :=
  match Text.trimStart line with
  | [] => []
  | c :: rest => if c == chr '*' then Text.trim rest else Text.trim line

/-- A comment without the decoration of its lines. -/
def undecorated (t : Text) : Text :=
  Text.joinWith (txt "\n") ((Text.splitOn (chr '\n') t).map undecoratedLine)

/-- A comment without its closing mark and the white space before it. -/
def withoutClosing (t : Text) : Text :=
  if Text.startsWith t.reverse (txt "/*") then Text.trimEnd (t.take (t.length - 2)) else t

/-- The text of the last comment node before the declaration, when it is documentation. -/
def attached (lead : Lead) : Text :=
  match lead.comments.getLast? with
  | none => []
  | some (start, stop) =>
    if !lead.isBlankBetween stop lead.start then []
    else match Text.after? (txt "/**") (Text.trim (SourceFile.sliceOf lead.bytes start stop)) with
      | none => []
      | some body => undecorated (withoutClosing (Text.trimStart body))

/-- The text between the last mark that opens documentation and the first mark behind it that
closes a comment. -/
def marked (lead : Lead) : Text :=
  let leading := SourceFile.sliceOf lead.bytes lead.fullStart lead.start
  match (Text.afterLast? (txt "/**") leading).bind (Text.cutFirst? (txt "*/")) with
  | none => []
  | some (body, _) => undecorated (Text.trim body)

/-- The text of the documentation comment of the declaration. -/
def documentation (lead : Lead) : Text :=
  if lead.attached.isEmpty then lead.marked else lead.attached

end Lead

end ParamSchema
