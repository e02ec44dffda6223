import Mathlib.Data.List.Nodup
import ParamSchema.Modules.Graph
import ParamSchema.Proofs.Search.Once

/-!
The files that an entry needs. `ModuleGraph.collect` searches with a stack and a bound; here it is
compared with the recursive depth-first search through the files that a file refers to, and with
reachability in the graph of local imports. The bound is large enough because a specifier leads to
a file, and never from paths with one slash in front to paths with two.
-/

namespace ParamSchema

/-! ### Reading files -/

namespace FileSystem

variable {fs : FileSystem} {p : Path}

theorem isFile_iff : fs.isFile p = true ↔ ∃ content, fs.file? p = some content := by
  rw [isFile, Option.isSome_iff_exists]

theorem isReadable_iff :
    fs.isReadable p = true ↔ ∃ bytes, fs.file? p = some (.readable bytes) := by
  unfold isReadable
  rcases fs.file? p with _ | bytes | _ <;> simp [Content.bytes?]

/-- The files that can be read are those that are not locked. -/
theorem isReadable_iff_not_locked :
    fs.isReadable p = true ↔ fs.isFile p = true ∧ fs.file? p ≠ some .locked := by
  unfold isReadable isFile
  rcases fs.file? p with _ | bytes | _ <;> simp [Content.bytes?]

theorem isReadable_eq_isFile (h : ∀ p, fs.file? p ≠ some .locked) :
    fs.isReadable = fs.isFile := by
  funext p
  rw [Bool.eq_iff_iff, isReadable_iff_not_locked]
  exact and_iff_left (h p)

theorem isFile_of_isReadable (h : fs.isReadable p = true) : fs.isFile p = true :=
  (isReadable_iff_not_locked.mp h).1

theorem parts_mem_of_isFile (h : fs.isFile p = true) : p.parts ∈ fs.files.map (·.1) := by
  obtain ⟨content, hc⟩ := isFile_iff.mp h
  obtain ⟨before, behind, split, _⟩ := List.lookup_eq_some_iff.mp hc
  simp [split]

end FileSystem

namespace SourceFile

variable {fs : FileSystem} {p : Path} {file : SourceFile}

theorem read_eq_ok_iff :
    SourceFile.read fs p = .ok file ↔
      ∃ chars, fs.readText p = .ok chars ∧ ofChars p chars = file := by
  unfold SourceFile.read
  cases fs.readText p <;> simp [Except.map]

theorem path_of_read (h : SourceFile.read fs p = .ok file) : file.path = p := by
  obtain ⟨chars, _, rfl⟩ := read_eq_ok_iff.mp h
  rfl

end SourceFile

/-! ### Resolving specifiers -/

namespace Specifier

variable {fs : FileSystem} {extensions : List Text} {directory q : Path} {specifier : Text}

/-- A local specifier is no absolute path. -/
theorem enter_of_isLocal (directory : Path) (h : isLocal specifier = true) :
    directory.enter specifier = ⟨directory.doubled,
      (Text.splitOn (chr '/') specifier).foldl Path.step directory.parts⟩ := by
  cases specifier with
  | nil => cases h
  | cons c rest =>
    have hc : chr '.' = c := by
      simpa [isLocal, Text.startsWith, txt, Text.ofString, Text.ofChars] using h
    subst hc
    rfl

theorem doubled_enter (directory : Path) (h : isLocal specifier = true) :
    (directory.enter specifier).doubled = directory.doubled := by
  rw [enter_of_isLocal directory h]

theorem doubled_of_mem_candidates (h : q ∈ candidates extensions directory specifier) :
    q.doubled = directory.doubled := by
  unfold candidates at h
  split at h
  · cases h
  · rename_i hlocal
    have kept := doubled_enter directory (by simpa using hlocal)
    simp only at h
    split at h
    · rcases List.mem_append.mp h with h | h
      · obtain ⟨e, _, rfl⟩ := List.mem_map.mp h
        exact kept
      · obtain ⟨e, _, rfl⟩ := List.mem_map.mp h
        exact kept
    · rw [List.mem_singleton.mp h]
      exact kept

theorem isFile_of_resolve (h : resolve fs extensions directory specifier = some q) :
    fs.isFile q = true :=
  List.find?_some h

theorem doubled_of_resolve (h : resolve fs extensions directory specifier = some q) :
    q.doubled = directory.doubled :=
  doubled_of_mem_candidates (List.mem_of_find?_eq_some h)

end Specifier

/-! ### The graph of imports -/

namespace ModuleGraph

variable {fs : FileSystem} {extensions : List Text}

/-- A file imports another when one of its import statements or loading calls, anywhere in its
syntax tree, has a specifier that stands for the other file. -/
def Imports (fs : FileSystem) (extensions : List Text) (p q : Path) : Prop :=
  ∃ file, SourceFile.read fs p = .ok file ∧ ∃ n ∈ file.tree.preorder, ∃ specifier,
    file.nodeSpecifier? n = some specifier ∧
      Specifier.resolve fs extensions p.parent specifier = some q

theorem mem_successors_iff {p q : Path} :
    q ∈ successors fs extensions p ↔ Imports fs extensions p q := by
  unfold successors Imports
  cases h : SourceFile.read fs p with
  | error e => simp
  | ok file =>
    simp only [SourceFile.references, SourceFile.specifiers, List.mem_filterMap,
      SourceFile.path_of_read h, Except.ok.injEq, exists_eq_left']
    constructor
    · rintro ⟨specifier, ⟨n, hn, hs⟩, hq⟩
      exact ⟨n, hn, specifier, hs, hq⟩
    · rintro ⟨n, hn, specifier, hs, hq⟩
      exact ⟨specifier, ⟨n, hn, hs⟩, hq⟩

/-- The paths that a search from an entry can meet: the entry, and the files with as many slashes
in front. -/
def meetable (fs : FileSystem) (entry : Path) : List Path :=
  entry :: fs.files.map fun f => ⟨entry.doubled, f.1⟩

theorem mem_meetable_of_isFile {entry p : Path} (hd : p.doubled = entry.doubled)
    (hp : fs.isFile p = true) : p ∈ meetable fs entry := by
  obtain ⟨f, hf, parts⟩ := List.mem_map.mp (FileSystem.parts_mem_of_isFile hp)
  refine List.mem_cons_of_mem _ (List.mem_map.mpr ⟨f, hf, ?_⟩)
  rw [parts, ← hd]

theorem doubled_of_mem_meetable {entry p : Path} (h : p ∈ meetable fs entry) :
    p.doubled = entry.doubled := by
  rcases List.mem_cons.mp h with rfl | h
  · rfl
  · obtain ⟨f, _, rfl⟩ := List.mem_map.mp h
    rfl

theorem successors_subset_meetable {entry p : Path} (h : p ∈ meetable fs entry) :
    successors fs extensions p ⊆ meetable fs entry := by
  intro q hq
  obtain ⟨_, _, _, _, specifier, _, resolved⟩ := mem_successors_iff.mp hq
  refine mem_meetable_of_isFile ?_ (Specifier.isFile_of_resolve resolved)
  rw [Specifier.doubled_of_resolve resolved]
  show p.doubled = entry.doubled
  exact doubled_of_mem_meetable h

/-- The recursive search from an entry ends, and `collect` gives what it emits. -/
theorem exists_visits_collect (fs : FileSystem) (extensions : List Text) (entry : Path) :
    ∃ marked, Search.Visits (successors fs extensions) fs.isReadable [] [entry]
      (collect fs extensions entry) marked ∧
      collect fs extensions entry = marked.reverse.filter fs.isReadable := by
  have inGraph : [entry] ⊆ meetable fs entry :=
    List.cons_subset.mpr ⟨List.mem_cons_self, List.nil_subset _⟩
  obtain ⟨out, marked, visits, inside⟩ :
      ∃ out marked, Search.Visits (successors fs extensions) fs.isReadable [] [entry] out marked ∧
        marked ⊆ meetable fs entry :=
    Search.exists_visits (fun _ h => successors_subset_meetable h) List.nodup_nil
      (List.nil_subset _) inGraph
  have bound : marked.length ≤ fs.files.length + 1 := by
    simpa [meetable] using
      (List.subperm_of_subset (visits.nodup List.nodup_nil) inside).length_le
  obtain ⟨order, emitted⟩ := visits.once_eq bound
  have same : collect fs extensions entry = out := emitted
  exact ⟨marked, same ▸ visits, by rw [← order]; rfl⟩

/-- The files that are collected are those that the recursive depth-first search from the entry
emits, in its order; the search has no other outcome. So no file is collected twice, the collected
files are the files that can be reached through imports, but for the locked ones, and an entry that
is a file and not locked comes first. Where no file is locked, the search emits all files. -/
theorem collect_is_depth_first (fs : FileSystem) (extensions : List Text) (entry : Path) :
    (∀ out,
      (∃ marked, Search.Visits (successors fs extensions) fs.isReadable [] [entry] out marked) ↔
        out = collect fs extensions entry) ∧
    (collect fs extensions entry).Nodup ∧
    (∀ p, p ∈ collect fs extensions entry ↔
      (fs.isFile p = true ∧ fs.file? p ≠ some .locked) ∧
        Relation.ReflTransGen (Imports fs extensions) entry p) ∧
    ((collect fs extensions entry).head? = some entry ↔
      fs.isFile entry = true ∧ fs.file? entry ≠ some .locked) ∧
    ((∀ p, fs.file? p ≠ some .locked) → ∀ out,
      (∃ marked, Search.Visits (successors fs extensions) fs.isFile [] [entry] out marked) ↔
        out = collect fs extensions entry) := by
  simp only [← FileSystem.isReadable_iff_not_locked]
  obtain ⟨marked, visits, order⟩ := exists_visits_collect fs extensions entry
  have only : ∀ out,
      (∃ marked, Search.Visits (successors fs extensions) fs.isReadable [] [entry] out marked) ↔
        out = collect fs extensions entry := by
    intro out
    constructor
    · rintro ⟨marked', visits'⟩
      exact (visits'.unique visits).1
    · rintro rfl
      exact ⟨marked, visits⟩
  refine ⟨only, ?_, ?_, ⟨?_, ?_⟩, ?_⟩
  · rw [order]
    exact (List.nodup_reverse.mpr (visits.nodup List.nodup_nil)).filter _
  · intro p
    have edges : (fun c d => d ∈ successors fs extensions c) = Imports fs extensions := by
      funext c d
      exact propext mem_successors_iff
    rw [order, List.mem_filter, List.mem_reverse, visits.mem_iff_reachable, edges, and_comm]
  · intro head
    have mem := List.mem_of_mem_head? head
    rw [order] at mem
    exact (List.mem_filter.mp mem).2
  · intro hentry
    generalize collect fs extensions entry = out at visits
    cases visits with
    | again mem _ => cases mem
    | first _ _ _ => simp [hentry]
  · intro unlocked
    rw [← FileSystem.isReadable_eq_isFile unlocked]
    exact only

end ModuleGraph

end ParamSchema
