import ParamSchema.Declaration.Cache
import ParamSchema.Payload.Written
import ParamSchema.Report.Banner

/-!
The service: requests about entry files, answered from a cache of extractions.
-/

namespace ParamSchema.Service

inductive Request where
  | analyze (entry : Text)
  | describe (entry : Text) (root : Option Text)
  | encode (entry : Text) (options : Payload.Options)
  /-- Drops the extraction of an entry, or all of them. -/
  | invalidate (entry : Option Text)
  deriving DecidableEq, Repr

inductive Answer where
  | extraction (value : Extraction)
  | description (text : Text)
  | encoded (text : Text)
  /-- The number of extractions that are kept. -/
  | cached (count : Nat)
  deriving DecidableEq, Repr

/-- Why a request has no answer. -/
inductive Refusal where
  /-- The entry is no file. -/
  | invalidEntry (path : Path)
  /-- The payload has a text that cannot be written. -/
  | unwritable
  deriving DecidableEq, Repr

namespace Refusal

/-- The status of a refusal that the caller is to blame for. -/
def status : Nat := 400

def message : Refusal → Text
  | .invalidEntry path => txt "Invalid entry_path: " ++ path.text
  | .unwritable => txt "The payload has a text that cannot be written"

end Refusal

/-- The extraction of an entry that is a file. -/
def extraction (fs : FileSystem) (cache : Cache) (entry : Text) :
    Except Refusal (Extraction × Cache) :=
  let path := fs.absolute entry
  if fs.isFile path then .ok (cache.get fs path) else .error (.invalidEntry path)

/-- The directory that reported paths are relative to: the one given, else the one one is in. -/
def projectRoot (fs : FileSystem) (root : Option Text) : Path :=
  match Payload.nonempty? root with
  | some root => fs.absolute root
  | none => fs.here

/-- Answers a request from an extraction. -/
def answer (fs : FileSystem) (cache : Cache) (entry : Text)
    (view : Extraction → Except Refusal Answer) : Except Refusal Answer × Cache :=
  match extraction fs cache entry with
  | .error refusal => (.error refusal, cache)
  | .ok (result, cache) => (view result, cache)

/-- Answers a request; the cache may have one extraction more, or fewer, afterwards. -/
def handle (fs : FileSystem) (cache : Cache) : Request → Except Refusal Answer × Cache
  | .analyze entry => answer fs cache entry fun result => .ok (.extraction result)
  | .describe entry root =>
    answer fs cache entry fun result =>
      .ok (.description (Report.banner (projectRoot fs root) result.declarations))
  | .encode entry options =>
    answer fs cache entry fun result =>
      match (Payload.ofDeclarations result.declarations options).encoded? with
      | some text => .ok (.encoded text)
      | none => .error .unwritable
  | .invalidate entry =>
    let cache := match Payload.nonempty? entry with
      | some entry => cache.invalidate (fs.absolute entry)
      | none => Cache.empty
    (.ok (.cached cache.size), cache)

end ParamSchema.Service
