import ParamSchema.Text.Search

/-!
Absolute paths in normal form. Normalisation is textual: empty parts and `.` are dropped, and `..`
drops the part before it, whatever the files are.
-/

namespace ParamSchema

/-- An absolute path as the list of its parts. -/
structure Path where
  /-- The path begins with exactly two slashes, which are kept. -/
  doubled : Bool
  parts : List Text
  deriving DecidableEq, Repr

/-- Why no file can have a name: it has the code point that ends names, or half of a surrogate
pair. -/
inductive NameFault where
  | nul
  | surrogate
  deriving DecidableEq, Repr

namespace Path

def root : Path := ⟨false, []⟩

/-- Goes from a directory to one of its entries, to itself or to its parent. -/
def step (parts : List Text) (part : Text) : List Text :=
  if part.isEmpty || part == txt "." then parts
  else if part == txt ".." then parts.dropLast
  else parts ++ [part]

/-- The path that a text denotes for someone in the directory `base`. -/
def enter (base : Path) (t : Text) : Path :=
  let names := Text.splitOn (chr '/') t
  if Text.startsWith t (txt "/") then
    ⟨Text.startsWith t (txt "//") && !Text.startsWith t (txt "///"), names.foldl step []⟩
  else ⟨base.doubled, names.foldl step base.parts⟩

def text (p : Path) : Text :=
  (if p.doubled then txt "//" else txt "/") ++ Text.joinWith (txt "/") p.parts

/-- The directory that holds a path. -/
def parent (p : Path) : Path := { p with parts := p.parts.dropLast }

/-- The last part of a path. -/
def name (p : Path) : Text := p.parts.getLast?.getD []

/-- Whether a code point stands for a byte of a name that is no text. -/
def isRawByte (c : CodePoint) : Bool := 0xDC80 ≤ c.val && c.val ≤ 0xDCFF

/-- Why no file can have the path. -/
def fault? (p : Path) : Option NameFault :=
  let points := p.parts.flatten
  if points.any fun c => c.isSurrogate && !isRawByte c then some .surrogate
  else if points.any (·.val == 0) then some .nul
  else none

/-- The extension of a file name, with its point; a name that only begins with points has
none. -/
def extensionOf (name : Text) : Text :=
  let tail := (name.reverse.takeWhile (· != chr '.')).reverse
  let stem := name.take (name.length - tail.length - 1)
  if tail.length < name.length && stem.any (· != chr '.') then chr '.' :: tail else []

def extension (p : Path) : Text := extensionOf p.name

/-- The path with an extension added to its last part. What stands behind a slash in the extension
is a part of its own. -/
def withExtension (p : Path) (extension : Text) : Path :=
  let parts := Text.splitOn (chr '/') extension
  { p with parts := p.parts.dropLast ++ [p.name ++ parts.headD []] ++ parts.tail }

/-- The entry `name` of the directory `p`, below further directories if the name has slashes. -/
def entry (p : Path) (name : Text) : Path :=
  { p with parts := p.parts ++ Text.splitOn (chr '/') name }

/-- The parts that remain of two lists behind their longest common beginning. -/
def apart : List Text → List Text → List Text × List Text
  | a :: s, b :: t => if a == b then apart s t else (a :: s, b :: t)
  | s, t => (s, t)

/-- How to reach `p` from the directory `root`. -/
def relativeTo (p root : Path) : Text :=
  let (up, down) := apart root.parts p.parts
  let parts := up.map (fun _ => txt "..") ++ down
  if parts.isEmpty then txt "." else Text.joinWith (txt "/") parts

end Path

end ParamSchema
