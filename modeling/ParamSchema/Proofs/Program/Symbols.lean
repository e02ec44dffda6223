import ParamSchema.Program.Symbols
import ParamSchema.Proofs.ModuleGraph
import ParamSchema.Proofs.Outcome
import ParamSchema.Proofs.Table

/-!
What the imports and exports of a file are told by. The files that a file needs are files
(`SourceFile.isFile_of_mem_targets`). Its imports and exports can be told unless one of its
statements names a module with an escape that is too large (`SourceFile.symbols_eq_error_iff`), and
they depend on other files only through which paths are files (`SourceFile.symbols_congr`).
-/

namespace ParamSchema

open Outcome (bind_eq_ok bind_eq_error)

namespace SourceFile

variable {fs fs' : FileSystem} {extensions : List Text} {file : SourceFile} {statement : Node}

/-! ### The targets of statements -/

theorem isFile_of_target? {source : Option Node} {q : Path}
    (h : file.target? fs extensions source = .ok (some q)) : fs.isFile q = true := by
  unfold target? at h
  split at h
  · cases h
  · split at h
    · obtain ⟨specifier, _, h⟩ := bind_eq_ok.mp h
      exact Specifier.isFile_of_resolve (Outcome.pure_eq_ok.mp h)
    · cases h

theorem target_clauseImports {target : Path} {part : Node} {entry : Text × Import}
    (h : entry ∈ file.clauseImports target part) : entry.2.target = target := by
  unfold clauseImports at h
  split at h
  · rw [List.mem_singleton.mp h]
  · obtain ⟨_, _, rfl⟩ := List.mem_map.mp h
    rfl
  · obtain ⟨_, _, rfl⟩ := List.mem_map.mp h
    rfl
  · cases h

theorem target_clauseExports {target : Option Path} {clause : Node} {entry : Text × Export}
    (h : entry ∈ file.clauseExports target clause) : entry.2.target = target := by
  obtain ⟨_, _, rfl⟩ := List.mem_map.mp h
  rfl

theorem isFile_of_statementImports {imports : List (Text × Import)} {entry : Text × Import}
    (h : file.statementImports fs extensions statement = .ok imports) (he : entry ∈ imports) :
    fs.isFile entry.2.target = true := by
  unfold statementImports at h
  split at h
  · cases h
    cases he
  · obtain ⟨target?, found, h⟩ := bind_eq_ok.mp h
    cases target? with
    | none =>
      cases h
      cases he
    | some target =>
      cases h
      obtain ⟨part, _, he⟩ := List.mem_flatMap.mp he
      rw [target_clauseImports he]
      exact isFile_of_target? found

theorem isFile_of_statementExports {exports : List (Text × Export)} {stars : List Path}
    (h : file.statementExports fs extensions statement = .ok (exports, stars)) :
    (∀ entry ∈ exports, ∀ q, entry.2.target = some q → fs.isFile q = true) ∧
      ∀ q ∈ stars, fs.isFile q = true := by
  have nothing : (∀ entry ∈ ([] : List (Text × Export)), ∀ q, entry.2.target = some q →
      fs.isFile q = true) ∧ ∀ q ∈ ([] : List Path), fs.isFile q = true := ⟨nofun, nofun⟩
  unfold statementExports at h
  split at h
  · cases h
    exact nothing
  · obtain ⟨target?, found, h⟩ := bind_eq_ok.mp h
    split at h
    · cases h
      exact nothing
    · split at h
      · cases h
        refine ⟨?_, nothing.2⟩
        intro entry he q hq
        rw [target_clauseExports he] at hq
        exact isFile_of_target? (hq ▸ found)
      · split at h
        · cases h
          exact nothing
        · cases h
          refine ⟨nothing.1, ?_⟩
          intro q hq
          exact isFile_of_target? ((Option.mem_toList.mp hq : target? = some q) ▸ found)

/-- All that a file needs are files. -/
theorem isFile_of_mem_targets {symbols : Symbols} (h : file.symbols fs extensions = .ok symbols)
    {q : Path} (hq : q ∈ symbols.targets) : fs.isFile q = true := by
  obtain ⟨imports, himports, h⟩ := bind_eq_ok.mp h
  obtain ⟨exports, hexports, h⟩ := bind_eq_ok.mp h
  cases h
  simp only [Symbols.targets, List.mem_append] at hq
  rcases hq with (hq | hq) | hq
  · obtain ⟨i, hi, rfl⟩ := List.mem_map.mp hq
    obtain ⟨entry, he, rfl⟩ := List.mem_map.mp (Table.mem_values_ofList hi)
    obtain ⟨l, hl, he⟩ := List.mem_flatten.mp he
    obtain ⟨statement, _, found⟩ := (Outcome.mem_of_mapM_eq_ok himports l).mp hl
    exact isFile_of_statementImports found he
  · obtain ⟨x, hx, target⟩ := List.mem_filterMap.mp hq
    obtain ⟨entry, he, rfl⟩ := List.mem_map.mp (Table.mem_values_ofList hx)
    obtain ⟨l, hl, he⟩ := List.mem_flatMap.mp he
    obtain ⟨statement, _, found⟩ := (Outcome.mem_of_mapM_eq_ok hexports l).mp hl
    exact (isFile_of_statementExports found).1 entry he q target
  · obtain ⟨l, hl, hq⟩ := List.mem_flatMap.mp hq
    obtain ⟨statement, _, found⟩ := (Outcome.mem_of_mapM_eq_ok hexports l).mp hl
    exact (isFile_of_statementExports found).2 q hq

/-! ### Names of modules that cannot be told -/

/-- A string literal has an escape that is too large. -/
def Oversized (file : SourceFile) (literal : Node) : Prop :=
  ∃ piece ∈ literal.children, piece.kind = .escapeSequence ∧
    ∃ cause, Escape.decode (file.textOf piece) = .error cause

/-- A statement imports from or exports on behalf of a module whose name has an escape that is too
large. -/
def NamesOversized (file : SourceFile) : Prop :=
  ∃ statement ∈ file.tree.children,
    (statement.kind = .importStatement ∨ statement.kind = .exportStatement) ∧
      ∃ source, statement.child? .source = some source ∧ source.kind = .string ∧
        file.Oversized source

theorem pieceValue_eq_error {piece : Node} {cause : Overflow} :
    file.pieceValue piece = .error cause ↔
      piece.kind = .escapeSequence ∧ Escape.decode (file.textOf piece) = .error cause := by
  unfold pieceValue
  split <;> simp_all

theorem stringValue_eq_error {literal : Node} :
    (∃ cause, file.stringValue literal = .error cause) ↔ file.Oversized literal := by
  have pieces : (∃ cause, (literal.children.filter Node.isNamed).mapM file.pieceValue =
      .error cause) ↔ file.Oversized literal := by
    rw [Outcome.exists_mapM_eq_error_iff]
    simp only [pieceValue_eq_error, exists_and_left]
    constructor
    · rintro ⟨piece, hp, kind, failure⟩
      exact ⟨piece, List.mem_of_mem_filter hp, kind, failure⟩
    · rintro ⟨piece, hp, kind, failure⟩
      refine ⟨piece, ?_, kind, failure⟩
      rw [List.mem_filter, Node.isNamed, kind]
      exact ⟨hp, rfl⟩
  rw [← pieces]
  unfold stringValue
  dsimp only
  split
  · next empty => simp [List.isEmpty_iff.mp empty, pure, Except.pure]
  · refine exists_congr fun cause => Outcome.bind_eq_error_of_ne ?_
    intro _ h
    cases h

theorem target?_eq_error {source : Option Node} :
    (∃ cause, file.target? fs extensions source = .error cause) ↔
      ∃ n, source = some n ∧ n.kind = .string ∧ file.Oversized n := by
  unfold target?
  cases source with
  | none => simp [pure, Except.pure]
  | some n =>
    by_cases kind : n.kind = .string
    · simp only [kind, beq_self_eq_true, if_true, Option.some.injEq, exists_eq_left', true_and,
        ← stringValue_eq_error]
      refine exists_congr fun cause => Outcome.bind_eq_error_of_ne ?_
      intro _ h
      cases h
    · simp [kind, pure, Except.pure]

theorem statementImports_eq_error :
    (∃ cause, file.statementImports fs extensions statement = .error cause) ↔
      statement.kind = .importStatement ∧
        ∃ source, statement.child? .source = some source ∧ source.kind = .string ∧
          file.Oversized source := by
  rw [← @target?_eq_error fs extensions]
  unfold statementImports
  by_cases kind : statement.kind = .importStatement
  · simp only [kind, bne_self_eq_false, Bool.false_eq_true, if_false, true_and]
    refine exists_congr fun cause => Outcome.bind_eq_error_of_ne ?_
    intro target? h
    cases target? <;> cases h
  · simp [kind, pure, Except.pure]

theorem statementExports_eq_error :
    (∃ cause, file.statementExports fs extensions statement = .error cause) ↔
      statement.kind = .exportStatement ∧
        ∃ source, statement.child? .source = some source ∧ source.kind = .string ∧
          file.Oversized source := by
  rw [← @target?_eq_error fs extensions]
  unfold statementExports
  by_cases kind : statement.kind = .exportStatement
  · simp only [kind, bne_self_eq_false, Bool.false_eq_true, if_false, true_and]
    refine exists_congr fun cause => Outcome.bind_eq_error_of_ne ?_
    intro target? h
    split at h
    · cases h
    · split at h
      · cases h
      · split at h <;> cases h
  · simp [kind, pure, Except.pure]

/-- The imports and exports of a file can be told unless the name of a module cannot. -/
theorem symbols_eq_error_iff :
    (∃ cause, file.symbols fs extensions = .error cause) ↔ file.NamesOversized := by
  constructor
  · rintro ⟨cause, h⟩
    rcases bind_eq_error.mp h with h | ⟨_, _, h⟩
    · obtain ⟨statement, hs, failure⟩ := Outcome.exists_of_mapM_eq_error h
      obtain ⟨kind, source⟩ := statementImports_eq_error.mp ⟨cause, failure⟩
      exact ⟨statement, hs, .inl kind, source⟩
    · rcases bind_eq_error.mp h with h | ⟨_, _, h⟩
      · obtain ⟨statement, hs, failure⟩ := Outcome.exists_of_mapM_eq_error h
        obtain ⟨kind, source⟩ := statementExports_eq_error.mp ⟨cause, failure⟩
        exact ⟨statement, hs, .inr kind, source⟩
      · cases h
  · rintro ⟨statement, hs, kind, source⟩
    cases told : file.symbols fs extensions with
    | error cause => exact ⟨cause, rfl⟩
    | ok symbols =>
      obtain ⟨imports, himports, h⟩ := bind_eq_ok.mp told
      obtain ⟨exports, hexports, _⟩ := bind_eq_ok.mp h
      obtain ⟨_, _, found⟩ := Outcome.exists_ok_of_mapM himports hs
      obtain ⟨_, _, found'⟩ := Outcome.exists_ok_of_mapM hexports hs
      rcases kind with kind | kind
      · obtain ⟨cause, failure⟩ := statementImports_eq_error.mpr ⟨kind, source⟩
        rw [failure] at found
        cases found
      · obtain ⟨cause, failure⟩ := statementExports_eq_error.mpr ⟨kind, source⟩
        rw [failure] at found'
        cases found'

/-! ### Other files -/

section

variable (paths : fs.isFile = fs'.isFile)

include paths

theorem target?_congr : file.target? fs extensions = file.target? fs' extensions := by
  funext source
  unfold target? Specifier.resolve
  rw [paths]

theorem statementImports_congr :
    file.statementImports fs extensions = file.statementImports fs' extensions := by
  funext statement
  unfold statementImports
  rw [target?_congr paths]

theorem statementExports_congr :
    file.statementExports fs extensions = file.statementExports fs' extensions := by
  funext statement
  unfold statementExports
  rw [target?_congr paths]

/-- Other files count only as files that there are, whatever is written in them. -/
theorem symbols_congr : file.symbols fs extensions = file.symbols fs' extensions := by
  unfold symbols
  rw [statementImports_congr paths, statementExports_congr paths]

end

end SourceFile

end ParamSchema
