import ParamSchema.Declaration.Extract

/-!
A cache of extractions by entry. An extraction is kept, whatever becomes of the files, until it is
dropped.
-/

namespace ParamSchema

/-- The extractions that are kept, by the paths of their entries. -/
structure Cache where
  results : Table Path Extraction

namespace Cache

def empty : Cache := ⟨[]⟩

def size (c : Cache) : Nat := c.results.length

def contains (c : Cache) (entry : Path) : Bool := c.results.has entry

/-- The extraction of an entry, made now unless it is kept already. -/
def get (c : Cache) (fs : FileSystem) (entry : Path) : Extraction × Cache :=
  match c.results.get? entry with
  | some result => (result, c)
  | none =>
    let result := Extraction.ofEntry fs entry
    (result, ⟨c.results.put entry result⟩)

/-- Drops the extraction of an entry. -/
def invalidate (c : Cache) (entry : Path) : Cache := ⟨c.results.erase entry⟩

end Cache

end ParamSchema
