import ParamSchema.Declaration.Extract
import ParamSchema.Proofs.Program.Exports
import ParamSchema.Proofs.Program.Symbols

/-!
The files that a program consists of. `Program.load` works through a queue with a bound; `Loads` is
the same work without a bound. The work ends (`loads_load`), because every file enters the table
once. A program has the files asked for and all that these need and that can be read, and no other
(`load_is_least_closed`). A file that is needed and cannot be read is missing from it
(`load_locked_target`).
-/

namespace ParamSchema

/-! ### Reading files -/

namespace FileSystem

variable {fs : FileSystem} {p : Path}

theorem read_of_file? {bytes : ByteArray} (h : fs.file? p = some (.readable bytes)) :
    fs.read p = .ok bytes := by
  rw [read, h]

/-- A path that cannot be read is refused, unless it is the name of no file. -/
theorem read_of_not_isReadable (h : fs.isReadable p = false) :
    (∃ failure, fs.read p = .error (.refused ⟨p, failure⟩)) ∨
      ∃ fault, fs.read p = .error (.unnameable p fault) ∧ p.fault? = some fault ∧
        fs.isFile p = false := by
  unfold isReadable at h
  unfold read isFile
  rcases file : fs.file? p with _ | bytes | _
  · dsimp only
    cases named : p.fault? with
    | some fault => exact .inr ⟨fault, rfl, rfl, rfl⟩
    | none =>
      dsimp only
      split
      · exact .inl ⟨_, rfl⟩
      · split
        · exact .inl ⟨_, rfl⟩
        · exact .inl ⟨_, rfl⟩
  · rw [file] at h
    cases h
  · exact .inl ⟨_, rfl⟩

end FileSystem

namespace SourceFile

variable {fs : FileSystem} {p : Path}

theorem read_eq_error_iff {fault : ReadFault} :
    SourceFile.read fs p = .error fault ↔ fs.read p = .error fault := by
  unfold SourceFile.read FileSystem.readText
  cases fs.read p <;> simp [Except.map]

theorem read_of_not_isReadable (h : fs.isReadable p = false) :
    (∃ failure, SourceFile.read fs p = .error (.refused ⟨p, failure⟩)) ∨
      ∃ fault, SourceFile.read fs p = .error (.unnameable p fault) ∧ p.fault? = some fault ∧
        fs.isFile p = false := by
  simp only [read_eq_error_iff]
  exact FileSystem.read_of_not_isReadable h

theorem read_of_isReadable (h : fs.isReadable p = true) :
    ∃ file, SourceFile.read fs p = .ok file := by
  obtain ⟨bytes, hb⟩ := FileSystem.isReadable_iff.mp h
  unfold SourceFile.read FileSystem.readText
  rw [FileSystem.read_of_file? hb]
  exact ⟨_, rfl⟩

theorem not_isReadable_of_read {fault : ReadFault} (h : SourceFile.read fs p = .error fault) :
    fs.isReadable p = false := by
  cases can : fs.isReadable p with
  | false => rfl
  | true =>
    obtain ⟨file, hf⟩ := read_of_isReadable can
    rw [hf] at h
    cases h

theorem isReadable_of_read {file : SourceFile} (h : SourceFile.read fs p = .ok file) :
    fs.isReadable p = true := by
  cases can : fs.isReadable p with
  | true => rfl
  | false =>
    rcases read_of_not_isReadable can with ⟨failure, hf⟩ | ⟨fault, hf, _⟩
    · rw [hf] at h
      cases h
    · rw [hf] at h
      cases h

theorem path_of_read_refused {e : ReadError} (h : SourceFile.read fs p = .error (.refused e)) :
    e.path = p := by
  rcases read_of_not_isReadable (not_isReadable_of_read h) with ⟨failure, hf⟩ | ⟨fault, hf, _⟩
  · rw [hf] at h
    cases h
    rfl
  · rw [hf] at h
    cases h

theorem fault?_of_read_unnameable {q : Path} {fault : NameFault}
    (h : SourceFile.read fs p = .error (.unnameable q fault)) :
    p.fault? = some fault ∧ fs.isFile p = false := by
  rcases read_of_not_isReadable (not_isReadable_of_read h) with
    ⟨failure, hf⟩ | ⟨fault, hf, unnamed⟩
  · rw [hf] at h
    cases h
  · rw [hf] at h
    cases h
    exact unnamed

end SourceFile

namespace Program

/-! ### The files that are needed -/

section

variable (fs : FileSystem) (extensions : List Text)

/-- A file needs another: it imports from it, exports a name on its behalf or exports everything of
it. -/
def Needs (p q : Path) : Prop :=
  ∃ file symbols, SourceFile.read fs p = .ok file ∧ file.symbols fs extensions = .ok symbols ∧
    q ∈ symbols.targets

variable (requested : List Path)

/-- The least set of paths with the files asked for and all that its members need and that can be
read. -/
inductive Needed : Path → Prop where
  | asked {p : Path} : p ∈ requested → Needed p
  | target {p q : Path} :
      Needed p → Needs fs extensions p q → fs.isReadable q = true → Needed q

/-- The work on a queue of files, without a bound: the table so far, the queue and the outcome. -/
inductive Loads :
    Table Path Module → List Path → Except LoadError (Table Path Module) → Prop where
  | done {loaded : Table Path Module} : Loads loaded [] (.ok loaded)
  | again {loaded : Table Path Module} {path : Path} {rest : List Path}
      {out : Except LoadError (Table Path Module)} :
      loaded.has path = true → Loads loaded rest out → Loads loaded (path :: rest) out
  | refused {loaded : Table Path Module} {path : Path} {rest : List Path} {e : ReadError} :
      loaded.has path = false → SourceFile.read fs path = .error (.refused e) →
      path ∈ requested → Loads loaded (path :: rest) (.error (.unreadable e))
  | unnameable {loaded : Table Path Module} {path q : Path} {rest : List Path}
      {fault : NameFault} :
      loaded.has path = false → SourceFile.read fs path = .error (.unnameable q fault) →
      Loads loaded (path :: rest) (.error (.unnameable q fault))
  | skipped {loaded : Table Path Module} {path : Path} {rest : List Path} {e : ReadError}
      {out : Except LoadError (Table Path Module)} :
      loaded.has path = false → SourceFile.read fs path = .error (.refused e) →
      path ∉ requested → Loads loaded rest out → Loads loaded (path :: rest) out
  | overflow {loaded : Table Path Module} {path : Path} {rest : List Path} {file : SourceFile}
      {cause : Overflow} :
      loaded.has path = false → SourceFile.read fs path = .ok file →
      file.symbols fs extensions = .error cause →
      Loads loaded (path :: rest) (.error (.overflow cause))
  | file {loaded : Table Path Module} {path : Path} {rest : List Path} {file : SourceFile}
      {symbols : Symbols} {out : Except LoadError (Table Path Module)} :
      loaded.has path = false → SourceFile.read fs path = .ok file →
      file.symbols fs extensions = .ok symbols →
      Loads (loaded ++ [(path, ⟨file, symbols⟩)]) (rest ++ symbols.targets) out →
      Loads loaded (path :: rest) out

end

variable {fs : FileSystem} {extensions : List Text} {requested : List Path}
  {loaded : Table Path Module} {pending rest : List Path} {path : Path}

/-- The work has one outcome. -/
theorem Loads.unique {out out' : Except LoadError (Table Path Module)}
    (h : Loads fs extensions requested loaded pending out)
    (h' : Loads fs extensions requested loaded pending out') : out = out' := by
  induction h with
  | done =>
    cases h' with
    | done => rfl
  | again has _ ih =>
    cases h' with
    | again _ rest => exact ih rest
    | _ => simp_all
  | refused new read asked =>
    cases h' with
    | refused _ read' _ =>
      rw [read] at read'
      cases read'
      rfl
    | _ => simp_all
  | unnameable new read =>
    cases h' with
    | unnameable _ read' =>
      rw [read] at read'
      cases read'
      rfl
    | _ => simp_all
  | skipped new read unasked _ ih =>
    cases h' with
    | skipped _ _ _ rest => exact ih rest
    | _ => simp_all
  | overflow new read symbols =>
    cases h' with
    | overflow _ read' symbols' =>
      rw [read] at read'
      cases read'
      rw [symbols] at symbols'
      cases symbols'
      rfl
    | _ => simp_all
  | file new read symbols _ ih =>
    cases h' with
    | file _ read' symbols' rest =>
      rw [read] at read'
      cases read'
      rw [symbols] at symbols'
      cases symbols'
      exact ih rest
    | _ => simp_all

/-! ### The work ends -/

theorem isSkipped_iff :
    isSkipped fs requested path = true ↔
      ∃ e, SourceFile.read fs path = .error (.refused e) ∧ path ∉ requested := by
  simp only [SourceFile.read_eq_error_iff, isSkipped]
  rcases fs.read path with (e | ⟨q, fault⟩) | bytes <;> simp

/-- What is passed over does not count. -/
theorem Loads.of_dropWhile {out : Except LoadError (Table Path Module)}
    (h : Loads fs extensions requested loaded
      (pending.dropWhile fun path => loaded.has path || isSkipped fs requested path) out) :
    Loads fs extensions requested loaded pending out := by
  induction pending with
  | nil => exact h
  | cons path rest ih =>
    by_cases passed : (loaded.has path || isSkipped fs requested path) = true
    · rw [List.dropWhile_cons_of_pos (by exact passed)] at h
      cases has : loaded.has path with
      | true => exact .again has (ih h)
      | false =>
        rw [has, Bool.false_or] at passed
        obtain ⟨e, read, unasked⟩ := isSkipped_iff.mp passed
        exact .skipped has read unasked (ih h)
    · rwa [List.dropWhile_cons_of_neg (by exact passed)] at h

/-- All paths of files. -/
def filePaths (fs : FileSystem) : List Path :=
  fs.files.flatMap fun f => [⟨false, f.1⟩, ⟨true, f.1⟩]

theorem mem_filePaths (h : fs.isFile path = true) : path ∈ filePaths fs := by
  obtain ⟨f, hf, parts⟩ := List.mem_map.mp (FileSystem.parts_mem_of_isFile h)
  refine List.mem_flatMap.mpr ⟨f, hf, ?_⟩
  obtain ⟨doubled, _⟩ := path
  obtain rfl := parts
  cases doubled <;> simp

theorem length_filePaths (fs : FileSystem) : (filePaths fs).length = 2 * fs.files.length := by
  simp [filePaths, List.length_flatMap, Nat.mul_comm]

/-- A bound above the number of files that are not in the table yet is large enough. -/
theorem loads_loadFrom {n : Nat} (distinct : loaded.keys.Nodup)
    (inside : loaded.keys ⊆ filePaths fs) (room : (filePaths fs).length < loaded.length + n) :
    Loads fs extensions requested loaded pending
      (loadFrom fs extensions requested n loaded pending) := by
  induction n generalizing loaded pending with
  | zero =>
    have full := (List.subperm_of_subset distinct inside).length_le
    rw [Table.keys, List.length_map] at full
    omega
  | succ n ih =>
    refine .of_dropWhile ?_
    unfold loadFrom
    have head := List.head?_dropWhile_not
      (fun path => loaded.has path || isSkipped fs requested path) pending
    generalize (pending.dropWhile fun path => loaded.has path || isSkipped fs requested path)
      = queue at head
    cases queue with
    | nil => exact .done
    | cons path rest =>
      obtain ⟨new, counts⟩ : loaded.has path = false ∧ isSkipped fs requested path = false :=
        Bool.or_eq_false_iff.mp head
      dsimp only
      cases read : SourceFile.read fs path with
      | error fault =>
        cases fault with
        | unnameable q fault => exact .unnameable new read
        | refused e =>
          refine .refused new read ?_
          by_contra unasked
          rw [isSkipped_iff.mpr ⟨e, read, unasked⟩] at counts
          cases counts
      | ok file =>
        dsimp only
        cases told : file.symbols fs extensions with
        | error cause => exact .overflow new read told
        | ok symbols =>
          refine .file new read told (ih ?_ ?_ ?_)
          · exact Table.nodup_keys_snoc new distinct
          · intro q hq
            rw [Table.keys, List.map_append, List.mem_append] at hq
            rcases hq with hq | hq
            · exact inside hq
            · obtain rfl : q = path := List.mem_singleton.mp hq
              exact mem_filePaths
                (FileSystem.isFile_of_isReadable (SourceFile.isReadable_of_read read))
          · rw [List.length_append, List.length_singleton]
            omega

/-- The work on the files asked for ends, with the outcome of `load`. -/
theorem loads_load (fs : FileSystem) (extensions : List Text) (requested : List Path) :
    Loads fs extensions requested [] requested
      ((load fs extensions requested).map Program.modules) := by
  have whole := @loads_loadFrom fs extensions requested [] requested (2 * fs.files.length + 1)
    List.nodup_nil (List.nil_subset _)
    (by rw [length_filePaths, List.length_nil]; omega)
  unfold load
  cases out : loadFrom fs extensions requested (2 * fs.files.length + 1) [] requested with
  | error e =>
    rw [out] at whole
    exact whole
  | ok loaded =>
    rw [out] at whole
    exact whole

/-! ### What the work keeps -/

/-- The state of the work: the table has files as they are read; the files asked for and all that
those in the table need are in the table or in the queue, if they can be read; and of what can be
read only what is needed is in either. -/
structure Loading (fs : FileSystem) (extensions : List Text) (requested : List Path)
    (loaded : Table Path Module) (pending : List Path) : Prop where
  distinct : loaded.keys.Nodup
  read : ∀ q m, loaded.get? q = some m →
    SourceFile.read fs q = .ok m.file ∧ m.file.symbols fs extensions = .ok m.symbols
  asked : ∀ q ∈ requested, loaded.has q = true ∨ q ∈ pending
  targets : ∀ q m, loaded.get? q = some m → ∀ t ∈ m.symbols.targets, fs.isReadable t = true →
    loaded.has t = true ∨ t ∈ pending
  needed : ∀ q, loaded.has q = true ∨ q ∈ pending → fs.isReadable q = true →
    Needed fs extensions requested q
  files : ∀ q ∈ pending, q ∈ requested ∨ fs.isFile q = true

namespace Loading

theorem start : Loading fs extensions requested [] requested where
  distinct := List.nodup_nil
  read _ _ h := by cases h
  asked _ hq := .inr hq
  targets _ _ h := by cases h
  needed _ h _ := by
    rcases h with h | h
    · cases h
    · exact .asked h
  files _ hq := .inl hq

/-- A path can leave the queue when it is in the table, or when it was not asked for and cannot be
read. -/
theorem drop (h : Loading fs extensions requested loaded (path :: rest))
    (idle : loaded.has path = true ∨ path ∉ requested ∧ fs.isReadable path = false) :
    Loading fs extensions requested loaded rest where
  distinct := h.distinct
  read := h.read
  asked q hq := by
    rcases h.asked q hq with done | waits
    · exact .inl done
    · rcases List.mem_cons.mp waits with rfl | waits
      · exact .inl (idle.resolve_right fun other => other.1 hq)
      · exact .inr waits
  targets q m hm t ht can := by
    rcases h.targets q m hm t ht can with done | waits
    · exact .inl done
    · rcases List.mem_cons.mp waits with rfl | waits
      · exact .inl (idle.resolve_right fun other => Bool.eq_false_iff.mp other.2 can)
      · exact .inr waits
  needed q hq := h.needed q (hq.imp_right (List.mem_cons_of_mem _))
  files q hq := h.files q (List.mem_cons_of_mem _ hq)

/-- A file that enters the table brings what it needs into the queue. -/
theorem file {file : SourceFile} {symbols : Symbols}
    (h : Loading fs extensions requested loaded (path :: rest)) (new : loaded.has path = false)
    (read : SourceFile.read fs path = .ok file)
    (told : file.symbols fs extensions = .ok symbols) :
    Loading fs extensions requested (loaded ++ [(path, ⟨file, symbols⟩)])
      (rest ++ symbols.targets) := by
  have get? (q : Path) : Table.get? (loaded ++ [(path, ⟨file, symbols⟩)]) q =
      if q == path then some ⟨file, symbols⟩ else loaded.get? q := Table.get?_snoc new
  have moves {q : Path} (hq : loaded.has q = true ∨ q ∈ path :: rest) :
      Table.has (loaded ++ [(path, ⟨file, symbols⟩)]) q = true ∨ q ∈ rest ++ symbols.targets := by
    rw [Table.has, get?]
    rcases hq with done | waits
    · by_cases same : q = path
      · simp [same]
      · simp only [beq_eq_false_iff_ne.mpr same, Bool.false_eq_true, if_false]
        exact .inl done
    · rcases List.mem_cons.mp waits with rfl | waits
      · simp
      · exact .inr (List.mem_append_left _ waits)
  have needed : Needed fs extensions requested path :=
    h.needed path (.inr List.mem_cons_self) (SourceFile.isReadable_of_read read)
  refine ⟨Table.nodup_keys_snoc new h.distinct, ?_, fun q hq => moves (h.asked q hq), ?_, ?_, ?_⟩
  · intro q m hm
    rw [get?] at hm
    split at hm
    · next same =>
      cases hm
      rw [eq_of_beq same]
      exact ⟨read, told⟩
    · exact h.read q m hm
  · intro q m hm t ht can
    rw [get?] at hm
    split at hm
    · cases hm
      exact .inr (List.mem_append_right _ ht)
    · exact moves (h.targets q m hm t ht can)
  · rintro q (done | waits) can
    · rw [Table.has, get?] at done
      split at done
      · next same =>
        rw [eq_of_beq same]
        exact needed
      · exact h.needed q (.inl done) can
    · rcases List.mem_append.mp waits with waits | waits
      · exact h.needed q (.inr (List.mem_cons_of_mem _ waits)) can
      · exact .target needed ⟨file, symbols, read, told, waits⟩ can
  · intro q hq
    rcases List.mem_append.mp hq with hq | hq
    · exact h.files q (List.mem_cons_of_mem _ hq)
    · exact .inr (SourceFile.isFile_of_mem_targets told hq)

/-- With an empty queue, the table has what is needed. -/
theorem has_iff_needed (h : Loading fs extensions requested loaded []) (q : Path) :
    (∃ m, loaded.get? q = some m) ↔ Needed fs extensions requested q := by
  rw [← Table.has_iff]
  constructor
  · intro has
    obtain ⟨m, hm⟩ := Table.has_iff.mp has
    exact h.needed q (.inl has) (SourceFile.isReadable_of_read (h.read q m hm).1)
  · intro needed
    induction needed with
    | asked hq => exact (h.asked _ hq).resolve_right List.not_mem_nil
    | @target p q _ needs can ih =>
      obtain ⟨m, hm⟩ := Table.has_iff.mp ih
      obtain ⟨file, symbols, read, told, ht⟩ := needs
      obtain ⟨read', told'⟩ := h.read p m hm
      rw [read] at read'
      cases read'
      rw [told] at told'
      cases told'
      exact (h.targets p m hm q ht can).resolve_right List.not_mem_nil

end Loading

/-- How the work can end: with a table that nothing is missing from, because a file asked for
cannot be read or is the name of no file, or because a file that is needed names a module that
cannot be told. -/
def Settled (fs : FileSystem) (extensions : List Text) (requested : List Path) :
    Except LoadError (Table Path Module) → Prop
  | .ok loaded => Loading fs extensions requested loaded []
  | .error (.unreadable e) => ∃ q ∈ requested, SourceFile.read fs q = .error (.refused e)
  | .error (.unnameable q fault) => ∃ q' ∈ requested,
      SourceFile.read fs q' = .error (.unnameable q fault)
  | .error (.overflow cause) => ∃ q file, Needed fs extensions requested q ∧
      SourceFile.read fs q = .ok file ∧ file.symbols fs extensions = .error cause

theorem Loads.settled {out : Except LoadError (Table Path Module)}
    (h : Loads fs extensions requested loaded pending out)
    (inv : Loading fs extensions requested loaded pending) :
    Settled fs extensions requested out := by
  induction h with
  | done => exact inv
  | again has _ ih => exact ih (inv.drop (.inl has))
  | refused _ read asked => exact ⟨_, asked, read⟩
  | @unnameable _ path _ _ _ _ read =>
    -- Files that are needed have names.
    rcases inv.files path List.mem_cons_self with asked | there
    · exact ⟨path, asked, read⟩
    · rw [(SourceFile.fault?_of_read_unnameable read).2] at there
      cases there
  | skipped _ read unasked _ ih =>
    exact ih (inv.drop (.inr ⟨unasked, SourceFile.not_isReadable_of_read read⟩))
  | overflow _ read told =>
    exact ⟨_, _, inv.needed _ (.inr List.mem_cons_self) (SourceFile.isReadable_of_read read), read,
      told⟩
  | file new read told _ ih => exact ih (inv.file new read told)

/-! ### Programs -/

/-- A program with the files asked for and all that they need and that can be read, each as it is
read. -/
structure LeastClosed (fs : FileSystem) (extensions : List Text) (requested : List Path)
    (p : Program) : Prop where
  distinct : p.modules.keys.Nodup
  modules : ∀ q, (∃ m, p.module? q = some m) ↔ Needed fs extensions requested q
  read : ∀ q m, p.module? q = some m →
    SourceFile.read fs q = .ok m.file ∧ m.file.symbols fs extensions = .ok m.symbols
  targets : ∀ q m, p.module? q = some m → ∀ t ∈ m.symbols.targets,
    (∃ m', p.module? t = some m') ↔ fs.isReadable t = true

theorem settled_load (fs : FileSystem) (extensions : List Text) (requested : List Path) :
    Settled fs extensions requested ((load fs extensions requested).map Program.modules) :=
  (loads_load fs extensions requested).settled .start

theorem leastClosed_of_load {p : Program} (h : load fs extensions requested = .ok p) :
    LeastClosed fs extensions requested p := by
  have settled := settled_load fs extensions requested
  rw [h] at settled
  have inv : Loading fs extensions requested p.modules [] := settled
  refine ⟨inv.distinct, inv.has_iff_needed, inv.read, ?_⟩
  intro q m hm t ht
  constructor
  · rintro ⟨m', hm'⟩
    exact SourceFile.isReadable_of_read (inv.read t m' hm').1
  · intro can
    exact Table.has_iff.mp ((inv.targets q m hm t ht can).resolve_right List.not_mem_nil)

theorem of_load_unreadable {e : ReadError}
    (h : load fs extensions requested = .error (.unreadable e)) :
    e.path ∈ requested ∧ fs.isReadable e.path = false := by
  have settled := settled_load fs extensions requested
  rw [h] at settled
  obtain ⟨q, asked, read⟩ := settled
  obtain rfl := SourceFile.path_of_read_refused read
  exact ⟨asked, SourceFile.not_isReadable_of_read read⟩

theorem of_load_unnameable {q : Path} {fault : NameFault}
    (h : load fs extensions requested = .error (.unnameable q fault)) :
    ∃ q' ∈ requested, q'.fault? = some fault ∧ fs.isFile q' = false := by
  have settled := settled_load fs extensions requested
  rw [h] at settled
  obtain ⟨q', asked, read⟩ := settled
  exact ⟨q', asked, SourceFile.fault?_of_read_unnameable read⟩

theorem of_load_overflow {cause : Overflow}
    (h : load fs extensions requested = .error (.overflow cause)) :
    ∃ q file, Needed fs extensions requested q ∧ SourceFile.read fs q = .ok file ∧
      file.NamesOversized := by
  have settled := settled_load fs extensions requested
  rw [h] at settled
  obtain ⟨q, file, needed, read, told⟩ := settled
  exact ⟨q, file, needed, read, SourceFile.symbols_eq_error_iff.mp ⟨cause, told⟩⟩

/-- Where there is a program, all files asked for could be read. -/
theorem LeastClosed.isReadable {p : Program} (h : LeastClosed fs extensions requested p) {q : Path}
    (needed : Needed fs extensions requested q) : fs.isReadable q = true := by
  obtain ⟨m, hm⟩ := (h.modules q).mpr needed
  exact SourceFile.isReadable_of_read (h.read q m hm).1

/-- Where there is a program, all modules that its files name can be told. -/
theorem LeastClosed.not_namesOversized {p : Program} (h : LeastClosed fs extensions requested p)
    {q : Path} {file : SourceFile} (needed : Needed fs extensions requested q)
    (read : SourceFile.read fs q = .ok file) : ¬ file.NamesOversized := by
  intro oversized
  obtain ⟨m, hm⟩ := (h.modules q).mpr needed
  obtain ⟨read', told⟩ := h.read q m hm
  rw [read] at read'
  cases read'
  obtain ⟨cause, failure⟩ := SourceFile.symbols_eq_error_iff.mpr oversized
  rw [failure] at told
  cases told

theorem load_ne_overflow (told : ∀ q file, Needed fs extensions requested q →
      SourceFile.read fs q = .ok file → ¬ file.NamesOversized) (cause : Overflow) :
    load fs extensions requested ≠ .error (.overflow cause) := by
  intro h
  obtain ⟨q, file, needed, read, oversized⟩ := of_load_overflow h
  exact told q file needed read oversized

/-- Where all modules that are named can be told, there is a program if and only if all files asked
for can be read. -/
theorem load_eq_ok_iff (told : ∀ q file, Needed fs extensions requested q →
      SourceFile.read fs q = .ok file → ¬ file.NamesOversized) :
    (∃ p, load fs extensions requested = .ok p) ↔ ∀ q ∈ requested, fs.isReadable q = true := by
  constructor
  · rintro ⟨p, h⟩ q asked
    exact (leastClosed_of_load h).isReadable (.asked asked)
  · intro can
    cases result : load fs extensions requested with
    | ok p => exact ⟨p, rfl⟩
    | error e =>
      cases e with
      | unreadable e =>
        obtain ⟨asked, locked⟩ := of_load_unreadable result
        exact absurd (can e.path asked) (Bool.eq_false_iff.mp locked)
      | overflow cause => exact absurd result (load_ne_overflow told cause)
      | unnameable q fault =>
        obtain ⟨q', asked, _, missing⟩ := of_load_unnameable result
        exact absurd (FileSystem.isFile_of_isReadable (can q' asked)) (Bool.eq_false_iff.mp missing)

/-- Exported names lead from files of a program to files of the program, as far as these can be
read. -/
theorem LeastClosed.exportedElsewhere {p : Program} (h : LeastClosed fs extensions requested p)
    {e e' : ExportedName} (he : e' ∈ p.exportedElsewhere e) :
    (∃ m, p.module? e'.1 = some m) ↔ fs.isReadable e'.1 = true := by
  obtain ⟨m, hm, target, _⟩ := mem_exportedElsewhere he
  exact h.targets e.1 m hm e'.1 target

/-! ### Entries -/

/-- The files that an entry needs through imports can be read. -/
theorem load_collect_ne_unreadable (entry : Path) (e : ReadError) :
    load fs extensions (ModuleGraph.collect fs extensions entry) ≠ .error (.unreadable e) := by
  intro h
  obtain ⟨collected, locked⟩ := of_load_unreadable h
  exact Bool.eq_false_iff.mp locked (List.mem_filter.mp collected).2

theorem load_collect_ne_unnameable (entry q : Path) (fault : NameFault) :
    load fs extensions (ModuleGraph.collect fs extensions entry) ≠
      .error (.unnameable q fault) := by
  intro h
  obtain ⟨q', collected, _, missing⟩ := of_load_unnameable h
  exact Bool.eq_false_iff.mp missing
    (FileSystem.isFile_of_isReadable (List.mem_filter.mp collected).2)

/-- Names are not resolved only where a file that is needed names a module that cannot be told. -/
theorem resolverFor_collect_eq_textual (entry : Path) :
    let files := ModuleGraph.collect fs Specifier.defaultExtensions entry
    Extraction.resolverFor fs files = .textual ↔
      ∃ q file, Needed fs Specifier.defaultExtensions files q ∧
        SourceFile.read fs q = .ok file ∧ file.NamesOversized := by
  intro files
  unfold Extraction.resolverFor
  cases result : load fs Specifier.defaultExtensions files with
  | ok p =>
    constructor
    · intro h
      cases h
    · rintro ⟨q, file, needed, read, oversized⟩
      exact absurd oversized ((leastClosed_of_load result).not_namesOversized needed read)
  | error e =>
    cases e with
    | unreadable e => exact absurd result (load_collect_ne_unreadable entry e)
    | unnameable q fault => exact absurd result (load_collect_ne_unnameable entry q fault)
    | overflow cause => exact ⟨fun _ => of_load_overflow result, fun _ => rfl⟩

/-- Loading ends, with one outcome. It is refused only for a file that was asked for and cannot be
read, and always for such a file, unless a file that is needed names a module that cannot be told or
a path asked for is the name of no file. Otherwise the program has the least set of files with those
asked for and all that its members need and that can be read, so that an import or an export of it
leads to a file that it lacks just when that file cannot be read. The files that an entry needs are
never refused: they make a program unless one of the files needed for it names a module that cannot
be told. -/
theorem load_is_least_closed (fs : FileSystem) (extensions : List Text) (requested : List Path) :
    (∀ out, Loads fs extensions requested [] requested out ↔
      out = (load fs extensions requested).map Program.modules) ∧
    (∀ e, load fs extensions requested = .error (.unreadable e) →
      e.path ∈ requested ∧ fs.isReadable e.path = false) ∧
    ((∀ q file, Needed fs extensions requested q → SourceFile.read fs q = .ok file →
        ¬ file.NamesOversized) →
      ((∃ p, load fs extensions requested = .ok p) ↔ ∀ q ∈ requested, fs.isReadable q = true) ∧
      ((∀ q ∈ requested, q.fault? = none) →
        ((∃ e, load fs extensions requested = .error (.unreadable e)) ↔
          ∃ q ∈ requested, fs.isReadable q = false))) ∧
    (∀ p, load fs extensions requested = .ok p →
      LeastClosed fs extensions requested p ∧
      ∀ e e', e' ∈ p.exportedElsewhere e →
        ((∃ m, p.module? e'.1 = some m) ↔ fs.isReadable e'.1 = true)) ∧
    ∀ entry, let files := ModuleGraph.collect fs Specifier.defaultExtensions entry
      (∀ e, load fs Specifier.defaultExtensions files ≠ .error (.unreadable e)) ∧
      (Extraction.resolverFor fs files = .textual ↔
        ∃ q file, Needed fs Specifier.defaultExtensions files q ∧
          SourceFile.read fs q = .ok file ∧ file.NamesOversized) := by
  have loads := loads_load fs extensions requested
  refine ⟨?_, fun _ => of_load_unreadable, ?_, ?_, ?_⟩
  · intro out
    constructor
    · intro h
      exact h.unique loads
    · rintro rfl
      exact loads
  · intro told
    have made := load_eq_ok_iff told
    refine ⟨made, fun named => ?_⟩
    constructor
    · rintro ⟨e, h⟩
      exact ⟨e.path, of_load_unreadable h⟩
    · rintro ⟨q, asked, locked⟩
      cases result : load fs extensions requested with
      | ok p => exact absurd (made.mp ⟨p, result⟩ q asked) (Bool.eq_false_iff.mp locked)
      | error e =>
        cases e with
        | unreadable e => exact ⟨e, rfl⟩
        | overflow cause => exact absurd result (load_ne_overflow told cause)
        | unnameable q fault =>
          obtain ⟨q', asked, unnamed, _⟩ := of_load_unnameable result
          rw [named q' asked] at unnamed
          cases unnamed
  · intro p h
    have closed := leastClosed_of_load h
    exact ⟨closed, fun _ _ => closed.exportedElsewhere⟩
  · intro entry
    exact ⟨load_collect_ne_unreadable entry, resolverFor_collect_eq_textual entry⟩

/-- A file that everything is exported from and that cannot be read is missing from the program,
and so is a file that is exported as one name. -/
theorem load_locked_target :
    let path (name : String) : Path := ⟨false, [txt name]⟩
    let fs := (((FileSystem.empty ⟨false, []⟩).write (path "a.ts")
        "export * from './b'; export * as c from './c'".toUTF8).put (path "b.ts") .locked).write
        (path "c.ts") "export type T = 'u'".toUTF8
    let resolved := Specifier.resolve fs Specifier.defaultExtensions (path "a.ts").parent
    resolved (txt "./b") = some (path "b.ts") ∧ resolved (txt "./c") = some (path "c.ts") ∧
    ∃ p m, load fs Specifier.defaultExtensions [path "a.ts"] = .ok p ∧
      p.module? (path "a.ts") = some m ∧ m.symbols.targets = [path "b.ts"] ∧
      p.module? (path "b.ts") = none ∧ p.module? (path "c.ts") = none := by
  intro path fs resolved
  have run : (load fs Specifier.defaultExtensions [path "a.ts"]).map (fun p =>
      ((p.module? (path "a.ts")).map (·.symbols.targets),
        (p.module? (path "b.ts")).isNone, (p.module? (path "c.ts")).isNone)) =
      .ok (some [path "b.ts"], true, true) := by
    decide +kernel
  refine ⟨by decide +kernel, by decide +kernel, ?_⟩
  obtain ⟨p, loaded, eq⟩ := Outcome.map_eq_ok.mp run
  obtain ⟨known, missing⟩ := Prod.mk.inj eq
  obtain ⟨locked, named⟩ := Prod.mk.inj missing
  obtain ⟨m, hm, targets⟩ := Option.map_eq_some_iff.mp known
  exact ⟨p, m, loaded, hm, targets, Option.isNone_iff_eq_none.mp locked,
    Option.isNone_iff_eq_none.mp named⟩

end Program

end ParamSchema
