import ParamSchema.Proofs.Program.Load

/-!
Trees of files in different directories. A specifier that leads to a place below the root of a tree
is resolved there, wherever the tree is placed. Only a specifier that leads to the root itself is
resolved by a name outside of the tree, that of the directory: with an extension, the directory is
not searched for an index. So two copies of a tree give the same files in the same order when both
names have an extension or neither has, and otherwise as far as the index of the root is found in
another way (`ModuleGraph.collect_relocated`).
-/

namespace ParamSchema

open Relation (ReflTransGen)

/-! ### Paths below a directory -/

namespace Path

/-- The path with some more parts. -/
def below (d : Path) (rel : List Text) : Path := { d with parts := d.parts ++ rel }

variable {d : Path} {dir rel : List Text} {specifier : Text}

theorem below_injective (d : Path) : d.below.Injective := by
  intro rel rel' same
  exact List.append_cancel_left (congrArg parts same)

theorem below_nil (d : Path) : d.below [] = d := congrArg (Path.mk d.doubled) (List.append_nil _)

theorem name_below (h : rel ≠ []) : (d.below rel).name = name ⟨false, rel⟩ := by
  rw [name, name, below, List.getLast?_append_of_ne_nil _ h]

theorem extension_below (h : rel ≠ []) : (d.below rel).extension = extension ⟨false, rel⟩ := by
  rw [extension, extension, name_below h]

theorem dropLast_below (h : rel ≠ []) : (d.below rel).parts.dropLast = d.parts ++ rel.dropLast :=
  List.dropLast_append_of_ne_nil h

theorem parent_below (h : rel ≠ []) : (d.below rel).parent = d.below rel.dropLast := by
  rw [parent, dropLast_below h]
  rfl

theorem withExtension_below (h : rel ≠ []) (e : Text) :
    (d.below rel).withExtension e = d.below (withExtension ⟨false, rel⟩ e).parts := by
  simp only [withExtension, dropLast_below h, name_below h, List.append_assoc]
  rfl

theorem entry_below (d : Path) (rel : List Text) (name : Text) :
    (d.below rel).entry name = d.below (entry ⟨false, rel⟩ name).parts :=
  congrArg (Path.mk d.doubled) (List.append_assoc ..)

/-- The place below a directory that an extension leads to when it is added to the name of the
directory, none if it makes another name of it. -/
def placeBelow? (extension : Text) : Option (List Text) :=
  let parts := Text.splitOn (chr '/') extension
  if (parts.headD []).isEmpty then some parts.tail else none

theorem withExtension_of_placeBelow? {e : Text} (proper : d.parts ≠ [])
    (h : placeBelow? e = some rel) : d.withExtension e = d.below rel := by
  obtain ⟨front, name, parts⟩ := (List.eq_nil_or_concat' d.parts).resolve_left proper
  simp only [placeBelow?, List.isEmpty_iff, Option.ite_none_right_eq_some, Option.some.injEq] at h
  obtain ⟨empty, rfl⟩ := h
  rw [List.headD_eq_head?_getD] at empty
  simp [withExtension, below, Path.name, parts, empty]

theorem not_isPrefix_withExtension {e : Text} (proper : d.parts ≠ [])
    (h : placeBelow? e = none) : ¬ d.parts <+: (d.withExtension e).parts := by
  obtain ⟨front, name, parts⟩ := (List.eq_nil_or_concat' d.parts).resolve_left proper
  have another : (Text.splitOn (chr '/') e).headD [] ≠ [] := by
    simpa [placeBelow?] using h
  simpa [withExtension, Path.name, parts, List.prefix_append_right_inj] using another

/-- A step inside a tree, none if it leads out of the tree. -/
def stepBelow? (rel : List Text) (part : Text) : Option (List Text) :=
  if rel.isEmpty && part == txt ".." then none else some (step rel part)

/-- The place in a tree that a text denotes for someone in a directory of the tree, none if it leads
out of the tree on the way. -/
def enterBelow? (dir : List Text) (t : Text) : Option (List Text) :=
  (Text.splitOn (chr '/') t).foldlM stepBelow? dir

theorem step_append {part : Text} (h : stepBelow? dir part = some rel) (base : List Text) :
    step (base ++ dir) part = base ++ rel := by
  rw [stepBelow?] at h
  split at h
  · cases h
  · next inside =>
    cases h
    rw [step, step]
    split
    · rfl
    · split
      · next up =>
        have filled : dir ≠ [] := by
          rintro rfl
          exact inside (by rw [up]; rfl)
        exact List.dropLast_append_of_ne_nil filled
      · exact List.append_assoc base dir [part]

theorem foldl_step_append {names : List Text} (h : names.foldlM stepBelow? dir = some rel)
    (base : List Text) : names.foldl step (base ++ dir) = base ++ rel := by
  induction names generalizing dir with
  | nil =>
    cases h
    rfl
  | cons name names ih =>
    rw [List.foldlM_cons] at h
    obtain ⟨next, first, rest⟩ := Option.bind_eq_some_iff.mp h
    rw [List.foldl_cons, step_append first, ih rest]

theorem enter_below (isLocal : Specifier.isLocal specifier = true)
    (h : enterBelow? dir specifier = some rel) : (d.below dir).enter specifier = d.below rel := by
  rw [Specifier.enter_of_isLocal _ isLocal]
  exact congrArg (Path.mk d.doubled) (foldl_step_append h d.parts)

end Path

/-! ### Trees of files -/

/-- Files by their places below a directory, which is none of them. -/
structure FileTree where
  file? : List Text → Option Content
  root : file? [] = none

namespace FileTree

variable (tree : FileTree)

/-- The tree of files with their places. Of two files at one place the first counts. -/
def ofFiles (files : List (List Text × Content)) (root : files.lookup [] = none) : FileTree :=
  ⟨fun rel => files.lookup rel, root⟩

/-- The bytes of a file of the tree, if it can be read. -/
def bytes? (rel : List Text) : Option ByteArray := (tree.file? rel).bind Content.bytes?

/-- The specifiers of a file of the tree. -/
def specifiers (rel : List Text) : List Text :=
  ((tree.bytes? rel).map fun bytes => (SourceFile.ofChars ⟨false, rel⟩
    (FileSystem.unixLines (Utf8.decode bytes.data.toList))).specifiers).getD []

/-- No specifier leads out of the tree. -/
def Closed : Prop :=
  ∀ rel, ∀ specifier ∈ tree.specifiers rel, Specifier.isLocal specifier = true →
    (Path.enterBelow? rel.dropLast specifier).isSome = true

/-- The places that are tried for the root: those that extensions lead to behind a slash, and then
its indices. -/
def rootPlaces (extensions : List Text) : List (List Text) :=
  extensions.filterMap Path.placeBelow? ++
    extensions.map fun e => Text.splitOn (chr '/') (txt "index" ++ e)

/-- The index of the root. -/
def index? (extensions : List Text) : Option (List Text) :=
  (rootPlaces extensions).find? fun rel => (tree.file? rel).isSome

/-- Whether a file has a specifier that leads to the root. -/
def RefersToRoot (rel : List Text) : Prop :=
  ∃ specifier ∈ tree.specifiers rel, Specifier.isLocal specifier = true ∧
    Path.enterBelow? rel.dropLast specifier = some []

end FileTree

namespace Specifier

/-- The paths that are tried for a path that a specifier leads to. -/
def tried (extensions : List Text) (path : Path) : List Path :=
  if path.extension.isEmpty then
    extensions.map path.withExtension ++ extensions.map fun e => path.entry (txt "index" ++ e)
  else [path]

theorem candidates_eq (extensions : List Text) (directory : Path) (specifier : Text) :
    candidates extensions directory specifier =
      if isLocal specifier then tried extensions (directory.enter specifier) else [] := by
  rw [candidates]
  cases isLocal specifier <;> rfl

theorem tried_below {d : Path} {rel : List Text} (h : rel ≠ []) (extensions : List Text) :
    tried extensions (d.below rel) =
      (tried extensions ⟨false, rel⟩).map fun q => d.below q.parts := by
  rw [tried, tried, Path.extension_below h]
  split
  · rw [List.map_append, List.map_map, List.map_map]
    congr 1
    · apply List.map_congr_left
      intro e _
      exact Path.withExtension_below h e
    · apply List.map_congr_left
      intro e _
      exact Path.entry_below d rel _
  · rfl

/-- The part of a specifier behind its last slash decides what is tried if it is a name, and
otherwise the name of the directory that the specifier leads to. -/
theorem candidates_of_last {directory : Path} {specifier last : Text}
    (isLocal : isLocal specifier = true)
    (h : (Text.splitOn (chr '/') specifier).getLast? = some last) (extensions : List Text) :
    let path := directory.enter specifier
    let shown := if last ∈ [[], txt ".", txt ".."] then path.name else last
    candidates extensions directory specifier =
      if (Path.extensionOf shown).isEmpty then
        extensions.map path.withExtension ++ extensions.map fun e => path.entry (txt "index" ++ e)
      else [path] := by
  intro path shown
  have name : path.name = shown := by
    dsimp only [shown]
    split
    · rfl
    · next proper =>
      obtain ⟨front, names⟩ := List.getLast?_eq_some_iff.mp h
      simp only [List.mem_cons, List.not_mem_nil, or_false, not_or] at proper
      obtain ⟨filled, point, points⟩ := proper
      have entered : path = _ := enter_of_isLocal directory isLocal
      rw [Path.name, entered, names, List.foldl_append]
      simp [Path.step, filled, point, points]
  rw [candidates_eq, if_pos isLocal, tried, Path.extension, name]

end Specifier

/-! ### Searching a tree -/

namespace FileTree

variable (tree : FileTree) (bare : Bool) (extensions : List Text)

/-- The file that is found for a place that a specifier leads to. At the root only the index can be
found, and only if the name of the directory is `bare`, without an extension. -/
def found? (rel : List Text) : Option (List Text) :=
  if rel = [] then if bare then tree.index? extensions else none
  else ((Specifier.tried extensions ⟨false, rel⟩).map Path.parts).find? fun rel =>
    (tree.file? rel).isSome

/-- The files that a file of the tree refers to. -/
def successors (rel : List Text) : List (List Text) :=
  (tree.specifiers rel).filterMap fun specifier =>
    if Specifier.isLocal specifier then
      (Path.enterBelow? rel.dropLast specifier).bind (tree.found? bare extensions)
    else none

/-- The depth-first search from an entry finds these files, in this order. -/
def Finds (entry : List Text) (rels : List (List Text)) : Prop :=
  ∃ marks, Search.Visits (tree.successors bare extensions) (fun rel => (tree.bytes? rel).isSome)
    [] [entry] rels marks

variable {tree bare extensions} {rel q : List Text}

theorem specifiers_of_none (h : tree.bytes? rel = none) : tree.specifiers rel = [] := by
  rw [specifiers, h]
  rfl

theorem isSome_bytes?_of_mem {specifier : Text} (h : specifier ∈ tree.specifiers rel) :
    (tree.bytes? rel).isSome = true := by
  cases there : tree.bytes? rel with
  | none =>
    rw [specifiers_of_none there] at h
    cases h
  | some bytes => rfl

theorem closed_ofFiles {files : List (List Text × Content)} {root : files.lookup [] = none}
    (h : ∀ f ∈ files, ∀ specifier ∈ (ofFiles files root).specifiers f.1,
      Specifier.isLocal specifier = true →
        (Path.enterBelow? f.1.dropLast specifier).isSome = true) :
    (ofFiles files root).Closed := by
  intro rel specifier mem
  obtain ⟨bytes, there⟩ := Option.isSome_iff_exists.mp (isSome_bytes?_of_mem mem)
  obtain ⟨content, there, _⟩ := Option.bind_eq_some_iff.mp there
  obtain ⟨before, behind, split, _⟩ := List.lookup_eq_some_iff.mp there
  exact h (rel, content) (by simp [split]) specifier mem

theorem found?_of_ne_nil (h : rel ≠ []) (bare bare' : Bool) :
    tree.found? bare extensions rel = tree.found? bare' extensions rel := by
  rw [found?, found?, if_neg h, if_neg h]

theorem mem_successors_iff :
    q ∈ tree.successors bare extensions rel ↔
      ∃ specifier ∈ tree.specifiers rel, Specifier.isLocal specifier = true ∧
        ∃ place, Path.enterBelow? rel.dropLast specifier = some place ∧
          tree.found? bare extensions place = some q := by
  simp [successors, Option.bind_eq_some_iff]

/-- With a bare name, files refer to the index of the root too. -/
theorem mem_successors_bare :
    q ∈ tree.successors true extensions rel ↔
      q ∈ tree.successors false extensions rel ∨
        tree.RefersToRoot rel ∧ tree.index? extensions = some q := by
  rw [mem_successors_iff, mem_successors_iff]
  constructor
  · rintro ⟨specifier, mem, isLocal, place, enters, found⟩
    by_cases root : place = []
    · subst root
      exact .inr ⟨⟨specifier, mem, isLocal, enters⟩, found⟩
    · exact .inl ⟨specifier, mem, isLocal, place, enters, found?_of_ne_nil root _ _ ▸ found⟩
  · rintro (⟨specifier, mem, isLocal, place, enters, found⟩ |
      ⟨⟨specifier, mem, isLocal, enters⟩, found⟩)
    · have proper : place ≠ [] := by
        rintro rfl
        cases found
      exact ⟨specifier, mem, isLocal, place, enters, found?_of_ne_nil proper _ _ ▸ found⟩
    · exact ⟨specifier, mem, isLocal, [], enters, found⟩

/-- The name of the directory matters only to files that refer to the root, and only if the root has
an index. -/
theorem successors_eq (h : ¬ tree.RefersToRoot rel ∨ tree.index? extensions = none)
    (bare bare' : Bool) :
    tree.successors bare extensions rel = tree.successors bare' extensions rel := by
  apply List.filterMap_congr
  intro specifier mem
  cases isLocal : Specifier.isLocal specifier with
  | false => rfl
  | true =>
    refine Option.bind_congr fun place enters => ?_
    by_cases root : place = []
    · subst root
      rcases h with apart | missing
      · exact absurd ⟨specifier, mem, isLocal, enters⟩ apart
      · simp [found?, missing]
    · exact found?_of_ne_nil root bare bare'

namespace Finds

variable {entry : List Text} {rels rels' : List (List Text)}

theorem unique (h : tree.Finds bare extensions entry rels)
    (h' : tree.Finds bare extensions entry rels') : rels = rels' := by
  obtain ⟨_, visits⟩ := h
  obtain ⟨_, visits'⟩ := h'
  exact (visits.unique visits').1

theorem mem_iff (h : tree.Finds bare extensions entry rels) :
    rel ∈ rels ↔ (tree.bytes? rel).isSome = true ∧
      ReflTransGen (fun a b => b ∈ tree.successors bare extensions a) entry rel := by
  obtain ⟨_, visits⟩ := h
  exact visits.mem_out_iff rel

/-- If no file on the way needs the name of the directory, the search finds the same with any
name. -/
theorem of_free (h : tree.Finds bare extensions entry rels)
    (free : ∀ rel ∈ rels, ¬ tree.RefersToRoot rel ∨ tree.index? extensions = none)
    (bare' : Bool) : tree.Finds bare' extensions entry rels := by
  have found := h
  obtain ⟨marks, visits⟩ := h
  refine ⟨marks, visits.congr ?_⟩
  intro rel mem
  apply successors_eq
  by_cases refers : tree.RefersToRoot rel
  · obtain ⟨specifier, named, _⟩ := refers
    have file := isSome_bytes?_of_mem named
    exact free rel (found.mem_iff.mpr ⟨file, (visits.mem_iff_reachable rel).mp mem⟩)
  · exact .inl refers

/-- Below a bare name the search finds all that it finds below a name with an extension. It finds
nothing more exactly when the index of the root, if it can be read, is among these if one of them
refers to the root. -/
theorem subset_of_bare (h : tree.Finds true extensions entry rels)
    (h' : tree.Finds false extensions entry rels') :
    rels' ⊆ rels ∧ (rels ⊆ rels' ↔ ∀ rel ∈ rels', tree.RefersToRoot rel →
      ∀ index, tree.index? extensions = some index → (tree.bytes? index).isSome = true →
        index ∈ rels') := by
  have more : rels' ⊆ rels := by
    intro rel mem
    obtain ⟨file, path⟩ := h'.mem_iff.mp mem
    exact h.mem_iff.mpr ⟨file, path.lift id fun _ _ step => mem_successors_bare.mpr (.inl step)⟩
  refine ⟨more, ?_, ?_⟩
  · intro less rel mem refers index found file
    obtain ⟨_, path⟩ := h.mem_iff.mp (more mem)
    have step := mem_successors_bare.mpr (.inr ⟨refers, found⟩)
    exact less (h.mem_iff.mpr ⟨file, path.tail step⟩)
  · intro met
    -- Each step of the way is one below the name with an extension, or leads to the index. A file
    -- that cannot be read is on no way but at its end.
    have reached {q : List Text} (file : (tree.bytes? q).isSome = true)
        (path : ReflTransGen (fun a b => b ∈ tree.successors true extensions a) entry q) :
        ReflTransGen (fun a b => b ∈ tree.successors false extensions a) entry q := by
      induction path with
      | refl => exact .refl
      | @tail b c _ step ih =>
        obtain ⟨specifier, named, _⟩ := mem_successors_iff.mp step
        have there := isSome_bytes?_of_mem named
        have here := ih there
        rcases mem_successors_bare.mp step with step | ⟨refers, found⟩
        · exact here.tail step
        · have mem := h'.mem_iff.mpr ⟨there, here⟩
          exact (h'.mem_iff.mp (met b mem refers c found file)).2
    intro rel mem
    obtain ⟨file, path⟩ := h.mem_iff.mp mem
    exact h'.mem_iff.mpr ⟨file, reached file path⟩

end Finds

end FileTree

/-! ### Trees in a directory -/

namespace FileSystem

/-- A file system with a tree in a directory that is not the root, and nothing else. -/
structure Holds (fs : FileSystem) (d : Path) (tree : FileTree) : Prop where
  proper : d.parts ≠ []
  inside : ∀ rel, fs.files.lookup (d.parts ++ rel) = tree.file? rel
  outside : ∀ parts, ¬ d.parts <+: parts → fs.files.lookup parts = none

namespace Holds

variable {fs : FileSystem} {d : Path} {tree : FileTree} (h : fs.Holds d tree)

include h

theorem file?_below (rel : List Text) : fs.file? (d.below rel) = tree.file? rel := h.inside rel

theorem isFile_below (rel : List Text) : fs.isFile (d.below rel) = (tree.file? rel).isSome :=
  congrArg Option.isSome (h.inside rel)

theorem isReadable_below (rel : List Text) :
    fs.isReadable (d.below rel) = (tree.bytes? rel).isSome := by
  rw [isReadable, h.file?_below, FileTree.bytes?]

/-- Beside the directory there is no file. -/
theorem isFile_withExtension {e : Text} (beside : Path.placeBelow? e = none) :
    fs.isFile (d.withExtension e) = false := by
  rw [isFile, file?, h.outside _ (Path.not_isPrefix_withExtension h.proper beside)]
  rfl

/-- What extensions make of the name of the directory is in the tree or nowhere. -/
theorem find?_withExtension (extensions : List Text) :
    (extensions.map d.withExtension).find? fs.isFile =
      ((extensions.filterMap Path.placeBelow?).map d.below).find? fs.isFile := by
  induction extensions with
  | nil => rfl
  | cons e extensions ih =>
    cases place : Path.placeBelow? e with
    | none =>
      rw [List.map_cons, List.find?_cons_of_neg (by simp [h.isFile_withExtension place]), ih,
        List.filterMap_cons_none place]
    | some rel =>
      rw [List.map_cons, List.filterMap_cons_some place, List.map_cons,
        Path.withExtension_of_placeBelow? h.proper place, List.find?_cons, List.find?_cons, ih]

theorem find?_map_below (rels : List (List Text)) :
    (rels.map d.below).find? fs.isFile =
      (rels.find? fun rel => (tree.file? rel).isSome).map d.below := by
  rw [List.find?_map, show fs.isFile ∘ d.below = _ from funext h.isFile_below]

/-- At the root of the tree only its index can be found. -/
theorem find?_tried_root (extensions : List Text) :
    (Specifier.tried extensions d).find? fs.isFile =
      (if d.extension.isEmpty then tree.index? extensions else none).map d.below := by
  rw [Specifier.tried]
  split
  · have entries : (extensions.map fun e => d.entry (txt "index" ++ e)) =
        (extensions.map fun e => Text.splitOn (chr '/') (txt "index" ++ e)).map d.below := by
      rw [List.map_map]
      rfl
    rw [List.find?_append, h.find?_withExtension, entries, ← List.find?_append, ← List.map_append,
      h.find?_map_below, FileTree.index?, FileTree.rootPlaces]
  · have missing : fs.isFile d = false := by
      rw [← d.below_nil, h.isFile_below, tree.root]
      rfl
    simp [missing]

/-- What a specifier that leads to a place in the tree stands for. -/
theorem find?_tried (extensions : List Text) (rel : List Text) :
    (Specifier.tried extensions (d.below rel)).find? fs.isFile =
      (tree.found? d.extension.isEmpty extensions rel).map d.below := by
  rw [FileTree.found?]
  by_cases root : rel = []
  · rw [if_pos root, root, d.below_nil, h.find?_tried_root]
  · rw [if_neg root, Specifier.tried_below root, ← h.find?_map_below, List.map_map]
    rfl

end Holds

/-- The file system with files below a directory. -/
def placed (d : Path) (files : List (List Text × Content)) : FileSystem :=
  { empty d with files := files.map fun f => (d.parts ++ f.1, f.2) }

theorem holds_placed {d : Path} {files : List (List Text × Content)}
    {root : files.lookup [] = none} (proper : d.parts ≠ []) :
    (placed d files).Holds d (.ofFiles files root) where
  proper := proper
  inside rel := by
    show (files.map fun f => (d.parts ++ f.1, f.2)).lookup (d.parts ++ rel) = files.lookup rel
    clear root
    induction files with
    | nil => rfl
    | cons f files ih =>
      have same : (d.parts ++ rel == d.parts ++ f.1) = (rel == f.1) := by
        rw [Bool.eq_iff_iff, beq_iff_eq, beq_iff_eq, List.append_cancel_left_eq]
      rw [List.map_cons, List.lookup_cons, List.lookup_cons, ih, same]
  outside parts apart := by
    rw [List.lookup_eq_none_iff]
    intro f mem
    obtain ⟨f, _, rfl⟩ := List.mem_map.mp mem
    rw [bne_iff_ne]
    rintro rfl
    exact apart (List.prefix_append ..)

end FileSystem

/-! ### Searching in a directory -/

/-- The specifiers of a file depend on its path only by the dialect. -/
theorem SourceFile.specifiers_ofChars {p q : Path} (same : dialectOf p = dialectOf q)
    (chars : List Char) : (ofChars p chars).specifiers = (ofChars q chars).specifiers := by
  have moved : ofChars p chars = { ofChars q chars with path := p } := by
    rw [ofChars, ofChars, same]
  rw [moved]
  rfl

namespace ModuleGraph

variable {fs : FileSystem} {d : Path} {tree : FileTree} {extensions : List Text}

section

variable (h : fs.Holds d tree)

include h

theorem specifiers_of_read {rel : List Text} {file : SourceFile}
    (read : SourceFile.read fs (d.below rel) = .ok file) :
    rel ≠ [] ∧ file.specifiers = tree.specifiers rel := by
  obtain ⟨bytes, there⟩ := FileSystem.isReadable_iff.mp (SourceFile.isReadable_of_read read)
  have content := h.file?_below rel ▸ there
  have proper : rel ≠ [] := by
    rintro rfl
    rw [tree.root] at content
    cases content
  have dialect : SourceFile.dialectOf (d.below rel) = SourceFile.dialectOf ⟨false, rel⟩ := by
    rw [SourceFile.dialectOf, Path.extension_below proper, SourceFile.dialectOf]
  rw [SourceFile.read, FileSystem.readText, FileSystem.read_of_file? there] at read
  cases read
  refine ⟨proper, ?_⟩
  rw [FileTree.specifiers, FileTree.bytes?, content]
  exact SourceFile.specifiers_ofChars dialect _

theorem resolve_below {dir : List Text} {specifier : Text}
    (stays : Specifier.isLocal specifier = true →
      (Path.enterBelow? dir specifier).isSome = true) :
    Specifier.resolve fs extensions (d.below dir) specifier =
      (if Specifier.isLocal specifier then
        (Path.enterBelow? dir specifier).bind (tree.found? d.extension.isEmpty extensions)
      else none).map d.below := by
  rw [Specifier.resolve, Specifier.candidates_eq]
  cases isLocal : Specifier.isLocal specifier with
  | false => rfl
  | true =>
    obtain ⟨rel, enters⟩ := Option.isSome_iff_exists.mp (stays isLocal)
    rw [if_pos rfl, if_pos rfl, Path.enter_below isLocal enters, enters, Option.bind_some,
      h.find?_tried]

/-- The files that a file refers to are those of the tree. -/
theorem successors_below (closed : tree.Closed) (rel : List Text) :
    successors fs extensions (d.below rel) =
      (tree.successors d.extension.isEmpty extensions rel).map d.below := by
  rw [successors]
  cases read : SourceFile.read fs (d.below rel) with
  | error e =>
    have missing : tree.bytes? rel = none := by
      rw [← Option.isNone_iff_eq_none, ← Option.isSome_eq_false_iff, ← h.isReadable_below]
      exact SourceFile.not_isReadable_of_read read
    rw [FileTree.successors, FileTree.specifiers_of_none missing]
    rfl
  | ok file =>
    obtain ⟨proper, specifiers⟩ := specifiers_of_read h read
    show file.references fs extensions = _
    rw [SourceFile.references, SourceFile.path_of_read read, Path.parent_below proper, specifiers,
      FileTree.successors, List.map_filterMap]
    apply List.filterMap_congr
    intro specifier mem
    exact resolve_below h (closed rel specifier mem)

/-- The collected files are those that the search through the tree finds. -/
theorem exists_finds (closed : tree.Closed) (extensions entry : List Text) :
    ∃ rels, tree.Finds d.extension.isEmpty extensions entry rels ∧
      collect fs extensions (d.below entry) = rels.map d.below := by
  obtain ⟨marked, visits, _⟩ := exists_visits_collect fs extensions (d.below entry)
  obtain ⟨rels, marks, visits, same, _⟩ := Search.Visits.exists_of_map (Path.below_injective d)
    (successors_below h closed) h.isReadable_below [] [entry] visits
  exact ⟨rels, ⟨marks, visits⟩, same⟩

end

/-- Copies of a tree in two directories give corresponding files in the same order, if both names of
the directories have an extension or neither has, or no file that is found refers to the root of the
tree, or the root has no index. If only one name has an extension, no more is found there, and as
much exactly when the index of the root, if it can be read, is found if a file refers to the root.
This is because extensions are tried unless the last part of a specifier has one, where that part is
a name, or otherwise unless the name of the directory has one that the specifier leads to. -/
theorem collect_relocated {fs₁ fs₂ : FileSystem} {d₁ d₂ : Path} {tree : FileTree}
    (h₁ : fs₁.Holds d₁ tree) (h₂ : fs₂.Holds d₂ tree) (closed : tree.Closed)
    (extensions entry : List Text) :
    (d₁.extension.isEmpty = d₂.extension.isEmpty ∨
        (∀ rel, d₁.below rel ∈ collect fs₁ extensions (d₁.below entry) →
          ¬ tree.RefersToRoot rel) ∨ tree.index? extensions = none →
      ∃ rels : List (List Text), collect fs₁ extensions (d₁.below entry) = rels.map d₁.below ∧
        collect fs₂ extensions (d₂.below entry) = rels.map d₂.below) ∧
    (d₁.extension.isEmpty = true → d₂.extension.isEmpty = false →
      ∃ rels₁ rels₂ : List (List Text),
        collect fs₁ extensions (d₁.below entry) = rels₁.map d₁.below ∧
        collect fs₂ extensions (d₂.below entry) = rels₂.map d₂.below ∧ rels₂ ⊆ rels₁ ∧
        (rels₁ ⊆ rels₂ ↔ ∀ rel ∈ rels₂, tree.RefersToRoot rel →
          ∀ index, tree.index? extensions = some index → (tree.bytes? index).isSome = true →
            index ∈ rels₂)) ∧
    ∀ directory specifier last, Specifier.isLocal specifier = true →
      (Text.splitOn (chr '/') specifier).getLast? = some last →
      let path := Path.enter directory specifier
      let shown := if last ∈ [[], txt ".", txt ".."] then path.name else last
      Specifier.candidates extensions directory specifier =
        if (Path.extensionOf shown).isEmpty then
          extensions.map path.withExtension ++ extensions.map fun e => path.entry (txt "index" ++ e)
        else [path] := by
  obtain ⟨rels₁, found₁, collected₁⟩ := exists_finds h₁ closed extensions entry
  obtain ⟨rels₂, found₂, collected₂⟩ := exists_finds h₂ closed extensions entry
  refine ⟨?_, ?_, ?_⟩
  · intro unaffected
    have found : tree.Finds d₂.extension.isEmpty extensions entry rels₁ := by
      rcases unaffected with same | free | missing
      · exact same ▸ found₁
      · refine found₁.of_free ?_ _
        intro rel mem
        exact .inl (free rel (collected₁ ▸ List.mem_map_of_mem mem))
      · exact found₁.of_free (fun _ _ => .inr missing) _
    refine ⟨rels₁, collected₁, ?_⟩
    rw [collected₂, found₂.unique found]
  · intro bare dotted
    rw [bare] at found₁
    rw [dotted] at found₂
    exact ⟨rels₁, rels₂, collected₁, collected₂, found₁.subset_of_bare found₂⟩
  · intro directory specifier last isLocal behind
    exact Specifier.candidates_of_last isLocal behind extensions

/-- A tree whose files refer to its root, in the directories `/app` and `//home/lib`. -/
theorem collect_relocated_index :
    let files := [([txt "a.ts"], .readable "import '.'".toUTF8),
      ([txt "index.ts"], .readable "import './sub/b'".toUTF8),
      ([txt "sub", txt "b.ts"], .readable "import '..'; import '../a'".toUTF8)]
    let tree := FileTree.ofFiles files rfl
    let d₁ : Path := ⟨false, [txt "app"]⟩
    let d₂ : Path := ⟨true, [txt "home", txt "lib"]⟩
    let fs₁ := FileSystem.placed d₁ files
    let fs₂ := FileSystem.placed d₂ files
    let rels := [[txt "a.ts"], [txt "index.ts"], [txt "sub", txt "b.ts"]]
    fs₁.Holds d₁ tree ∧ fs₂.Holds d₂ tree ∧ tree.Closed ∧ tree.RefersToRoot [txt "a.ts"] ∧
      collect fs₁ [txt ".ts"] (d₁.below [txt "a.ts"]) = rels.map d₁.below ∧
      collect fs₂ [txt ".ts"] (d₂.below [txt "a.ts"]) = rels.map d₂.below := by
  intro files tree d₁ d₂ fs₁ fs₂ rels
  have h₁ : fs₁.Holds d₁ tree := FileSystem.holds_placed (List.cons_ne_nil _ _)
  have h₂ : fs₂.Holds d₂ tree := FileSystem.holds_placed (List.cons_ne_nil _ _)
  have closed : tree.Closed := FileTree.closed_ofFiles (by decide +kernel)
  have refers : tree.RefersToRoot [txt "a.ts"] := by
    refine ⟨txt ".", ?_, ?_⟩ <;> decide +kernel
  have run : collect fs₁ [txt ".ts"] (d₁.below [txt "a.ts"]) = rels.map d₁.below := by
    decide +kernel
  obtain ⟨rels', first, second⟩ := (collect_relocated h₁ h₂ closed [txt ".ts"] [txt "a.ts"]).1
    (.inl (by decide))
  have same : rels' = rels :=
    List.map_injective_iff.mpr (Path.below_injective d₁) (first.symm.trans run)
  exact ⟨h₁, h₂, closed, refers, run, same ▸ second⟩

/-- The index of the root is found in the directory `/app` and not in `/app.v2`. -/
theorem collect_dotted_directory :
    let files := [([txt "a.ts"], .readable "import '.'".toUTF8),
      ([txt "index.ts"], .readable "".toUTF8)]
    let d₁ : Path := ⟨false, [txt "app"]⟩
    let d₂ : Path := ⟨false, [txt "app.v2"]⟩
    collect (FileSystem.placed d₁ files) [txt ".ts"] (d₁.below [txt "a.ts"]) =
      [d₁.below [txt "a.ts"], d₁.below [txt "index.ts"]] ∧
    collect (FileSystem.placed d₂ files) [txt ".ts"] (d₂.below [txt "a.ts"]) =
      [d₂.below [txt "a.ts"]] := by
  decide +kernel

end ModuleGraph

end ParamSchema
