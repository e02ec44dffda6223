import ParamSchema.Path
import ParamSchema.Text.Utf8

/-!
A file system: regular files, directories, and the directory that relative paths start from. A file
has bytes, or it is there and cannot be read. Reading a source file gives text: bytes that are no
text become replacement characters, and the line ends `\r\n` and `\r` become `\n`.
-/

namespace ParamSchema

/-- Why the operating system does not let a path be read. -/
inductive ReadFailure where
  | missing
  | notDirectory
  | isDirectory
  | denied
  deriving DecidableEq, Repr

/-- A file that could not be read. -/
structure ReadError where
  path : Path
  failure : ReadFailure
  deriving DecidableEq, Repr

/-- Why a path cannot be read: the operating system refuses it, or no file can have its name, so
that the operating system is not even asked. -/
inductive ReadFault where
  | refused (error : ReadError)
  | unnameable (path : Path) (fault : NameFault)
  deriving DecidableEq, Repr

/-- What a regular file is to those who read it. -/
inductive Content where
  | readable (bytes : ByteArray)
  /-- The file cannot be read. -/
  | locked

structure FileSystem where
  /-- The directory that relative paths start from. -/
  here : Path
  files : List (List Text × Content)
  directories : List (List Text)

namespace ReadFailure

/-- The number and the words of the operating system for a failure. -/
def reason : ReadFailure → Text
  | .missing => txt "[Errno 2] No such file or directory"
  | .notDirectory => txt "[Errno 20] Not a directory"
  | .isDirectory => txt "[Errno 21] Is a directory"
  | .denied => txt "[Errno 13] Permission denied"

end ReadFailure

namespace ReadError

/-- A code point inside quotes. -/
def quotedPoint (quote c : CodePoint) : Text :=
  if c == quote || c == chr '\\' then [chr '\\', c]
  else if c.val == 0x0A then txt "\\n"
  else if c.val == 0x0D then txt "\\r"
  else if c.val == 0x09 then txt "\\t"
  else if c.val < 0x20 || c.val == 0x7F then
    txt "\\x" ++ Text.ofChars [Nat.digitChar (c.val / 16), Nat.digitChar (c.val % 16)]
  else [c]

/-- A text between single quotes, or between double quotes when it has single quotes only. -/
def quoted (t : Text) : Text :=
  let quote :=
    if t.contains (chr '\x27') && !t.contains (chr '\x22') then chr '\x22' else chr '\x27'
  [quote] ++ t.flatMap (quotedPoint quote) ++ [quote]

def message (e : ReadError) : Text :=
  txt "Cannot read " ++ e.path.text ++ txt ": " ++ e.failure.reason ++ txt ": " ++
    quoted e.path.text

end ReadError

/-- The bytes of a file, if it can be read. -/
def Content.bytes? : Content → Option ByteArray
  | .readable bytes => some bytes
  | .locked => none

namespace FileSystem

/-- The absolute path of a text. -/
def absolute (fs : FileSystem) (t : Text) : Path := fs.here.enter t

def file? (fs : FileSystem) (p : Path) : Option Content := fs.files.lookup p.parts

def isFile (fs : FileSystem) (p : Path) : Bool := (fs.file? p).isSome

/-- Whether there is a file at the path that can be read. -/
def isReadable (fs : FileSystem) (p : Path) : Bool := ((fs.file? p).bind Content.bytes?).isSome

def isDirectory (fs : FileSystem) (p : Path) : Bool :=
  p.parts.isEmpty || fs.directories.contains p.parts || fs.here.parts.take p.parts.length == p.parts

/-- The beginnings of a list, without the list itself. -/
def ancestors (parts : List Text) : List (List Text) :=
  (List.range parts.length).map parts.take

/-- The bytes of a regular file. -/
def read (fs : FileSystem) (p : Path) : Except ReadFault ByteArray :=
  let refused (failure : ReadFailure) := .error (.refused ⟨p, failure⟩)
  match fs.file? p with
  | some (.readable bytes) => .ok bytes
  | some .locked => refused .denied
  | none =>
    match p.fault? with
    | some fault => .error (.unnameable p fault)
    | none =>
      if fs.isDirectory p then refused .isDirectory
      else if (ancestors p.parts).any fun parts => (fs.files.lookup parts).isSome then
        refused .notDirectory
      else refused .missing

/-- Line ends as single line feeds. -/
def unixLines : List Char → List Char
  | [] => []
  | '\r' :: '\n' :: rest => '\n' :: unixLines rest
  | '\r' :: rest => '\n' :: unixLines rest
  | c :: rest => c :: unixLines rest

/-- The text of a source file. -/
def readText (fs : FileSystem) (p : Path) : Except ReadFault (List Char) :=
  (fs.read p).map fun bytes => unixLines (Utf8.decode bytes.data.toList)

/-- Adds directories to those there are. -/
def withDirectories (fs : FileSystem) (new : List (List Text)) : FileSystem :=
  { fs with directories := fs.directories ++ new.filter (!fs.directories.contains ·) }

/-- Puts a file at a path and makes its directories. -/
def put (fs : FileSystem) (p : Path) (content : Content) : FileSystem :=
  { fs.withDirectories (ancestors p.parts) with
    files := (p.parts, content) :: fs.files.filter (·.1 != p.parts) }

/-- Writes a file and makes its directories. -/
def write (fs : FileSystem) (p : Path) (bytes : ByteArray) : FileSystem :=
  fs.put p (.readable bytes)

def makeDirectory (fs : FileSystem) (p : Path) : FileSystem :=
  fs.withDirectories (ancestors p.parts ++ [p.parts])

def remove (fs : FileSystem) (p : Path) : FileSystem :=
  { fs with files := fs.files.filter (·.1 != p.parts) }

/-- A file system with nothing but the directory one is in. -/
def empty (here : Path) : FileSystem := ⟨here, [], []⟩

end FileSystem

end ParamSchema
