import ParamSchema.Proofs.Layout.File
import ParamSchema.Proofs.ModuleGraph
import ParamSchema.Proofs.Shape.Genuine

/-!
What references stand for in a program. The declarations of a name are those of one scope of a file
of the program or of the file of the reference (`Program.gathered_typeDeclarations`). So references
lead from genuine shapes to genuine shapes (`Program.genuine_target`), and the shapes they lead to
are no larger than the trees of the files (`Program.size_target`).
-/

namespace ParamSchema

/-- Files that are told apart by their paths, with trees in which no mark stands twice. -/
structure Library (known : SourceFile → Prop) : Prop where
  same : ∀ {f g : SourceFile}, known f → known g → f.path = g.path → f = g
  distinct : ∀ {f : SourceFile}, known f → (f.tree.preorder.filterMap Node.mark?).Nodup
  program : ∀ {f : SourceFile}, known f → f.tree.kind = .program

/-- Some known files are a library as well. -/
theorem Library.mono {known known' : SourceFile → Prop} (lib : Library known)
    (h : ∀ f, known' f → known f) : Library known' where
  same hf hg := lib.same (h _ hf) (h _ hg)
  distinct hf := lib.distinct (h _ hf)
  program hf := lib.program (h _ hf)

/-- A file as it is read from a file system. -/
def SourceFile.ReadFrom (fs : FileSystem) (file : SourceFile) : Prop :=
  SourceFile.read fs file.path = .ok file

/-- The files of a file system are a library. -/
theorem library_readFrom (fs : FileSystem) : Library (SourceFile.ReadFrom fs) where
  same {f g} hf hg path := by
    rw [SourceFile.ReadFrom, path, show SourceFile.read fs g.path = .ok g from hg] at hf
    exact (Except.ok.inj hf).symm
  distinct hf := by
    obtain ⟨chars, _, file⟩ := SourceFile.read_eq_ok_iff.mp hf
    rw [← file]
    exact Parse.nodup_marks_file _ chars
  program hf := by
    obtain ⟨chars, _, file⟩ := SourceFile.read_eq_ok_iff.mp hf
    rw [← file]
    rfl

namespace Program

/-- A program of known files. -/
def Of (known : SourceFile → Prop) (p : Program) : Prop := ∀ m ∈ p.modules.values, known m.file

section

variable {fs : FileSystem} {extensions : List Text} {requested : List Path}

theorem readFrom_of_loadFrom {n : Nat} {loaded loaded' : Table Path Module} {pending : List Path}
    (h : loadFrom fs extensions requested n loaded pending = .ok loaded')
    (files : ∀ m ∈ loaded.values, m.file.ReadFrom fs) :
    ∀ m ∈ loaded'.values, m.file.ReadFrom fs := by
  induction n generalizing loaded pending with
  | zero =>
    cases h
    exact files
  | succ n ih =>
    rw [loadFrom] at h
    split at h
    · cases h
      exact files
    · split at h
      · cases h
      · cases h
      · next file read =>
        split at h
        · cases h
        · refine ih h ?_
          intro m hm
          rw [Table.values, List.map_append, List.mem_append] at hm
          rcases hm with hm | hm
          · exact files m hm
          · obtain rfl := List.mem_singleton.mp hm
            rw [SourceFile.ReadFrom, SourceFile.path_of_read read]
            exact read

/-- A program consists of files of the file system that it is loaded from. -/
theorem of_load {p : Program} (h : load fs extensions requested = .ok p) :
    p.Of (SourceFile.ReadFrom fs) := by
  rw [load] at h
  cases hl : loadFrom fs extensions requested (2 * fs.files.length + 1) [] requested with
  | error e =>
    rw [hl] at h
    cases h
  | ok loaded =>
    rw [hl] at h
    cases h
    exact readFrom_of_loadFrom hl (by simp [Table.values])

end

end Program

/-! ### Declarations of a name -/

/-- No declarations, or those of a name in one scope of a known file. -/
def Gathered (known : SourceFile → Prop) (declarations : List Site) : Prop :=
  declarations = [] ∨ ∃ file scope name, known file ∧ file.root.Within scope ∧
    scope.isScope = true ∧ declarations = file.declarationsIn .type name scope

namespace Program

variable {known : SourceFile → Prop} {p : Program} (lib : Library known) (hp : p.Of known)

theorem known_of_module? (hp : p.Of known) {path : Path} {m : Module}
    (h : p.module? path = some m) : known m.file := by
  obtain ⟨before, behind, entries, _⟩ := List.lookup_eq_some_iff.mp h
  exact hp m (by simp [Table.values, entries])

include lib hp

theorem gathered_exportedHere (e : ExportedName) : Gathered known (p.exportedHere .type e) := by
  rw [exportedHere]
  cases found : p.module? e.1 with
  | none => exact .inl rfl
  | some m =>
    dsimp only
    cases localName? m e.2 with
    | none => exact .inl rfl
    | some name =>
      have file := known_of_module? hp found
      have scope : m.file.root.isScope = true := by
        have kind : m.file.root.kind = .program := lib.program file
        rw [Place.isScope, kind]
        rfl
      exact .inr ⟨m.file, m.file.root, name, file, .root, scope, rfl⟩

theorem gathered_exported (e : ExportedName) : Gathered known (p.exported .type e) := by
  rw [exported]
  cases found : List.find? _ _ with
  | none => exact .inl rfl
  | some declarations =>
    obtain ⟨e', _, rfl⟩ := List.mem_map.mp (List.mem_of_find?_eq_some found)
    exact gathered_exportedHere lib hp e'

theorem gathered_imported (path : Path) (name : Text) :
    Gathered known (p.imported .type path name) := by
  rw [imported]
  split
  · exact gathered_exported lib hp _
  · exact .inl rfl

theorem gathered_lookup {site : Site} (hs : site.Of known) (name : Text) :
    Gathered known (p.lookup .type site name) := by
  rw [lookup]
  split
  · next declarations found =>
    obtain ⟨scope, hscope, rfl⟩ := List.mem_map.mp (List.mem_of_find?_eq_some found)
    obtain ⟨around, isScope⟩ := List.mem_filter.mp hscope
    have within := Place.within_of_mem_around hs.place rfl around
    exact .inr ⟨site.file, scope, name, hs.file, within, isScope, rfl⟩
  · exact gathered_imported lib hp _ _

theorem gathered_qualified (path : Path) (name : Text) :
    Gathered known (p.qualified .type path name) := by
  rw [qualified]
  split
  · exact .inl rfl
  · split
    · exact .inl rfl
    · split
      · exact gathered_exported lib hp _
      · exact .inl rfl

/-- The declarations that a reference can have stand in one scope. -/
theorem gathered_typeDeclarations {site : Site} (hs : site.Of known) (name : Text) :
    Gathered known (p.typeDeclarations name site) := by
  rw [typeDeclarations]
  split
  · exact gathered_qualified lib hp _ _
  · exact gathered_lookup lib hp hs name

end Program

theorem Site.Of.declaration {known : SourceFile → Prop} {file : SourceFile} {scope : Place}
    {name : Text} {d : Site} (hf : known file) (within : file.root.Within scope)
    (h : d ∈ file.declarationsIn .type name scope) : d.Of known := by
  obtain ⟨hfile, ⟨q, hq, place⟩, _⟩ := SourceFile.mem_declarationsIn h
  refine ⟨hfile ▸ hf, ?_⟩
  rw [hfile, place]
  exact Place.within_declaration within hq

/-! ### Enumerations -/

namespace SourceFile

open Outcome (bind_eq_ok)

variable {file : SourceFile}

theorem atom_of_mem_enumShapes {next : Double} {members : List Node} {ss : List Shape}
    (h : file.enumShapes next members = .ok ss) :
    (∀ s ∈ ss, s.Atom) ∧ Shape.sizes ss ≤ members.length := by
  induction members generalizing next ss with
  | nil =>
    cases h
    exact ⟨by simp, le_rfl⟩
  | cons member rest ih =>
    have cons {s : Shape} {ss : List Shape} (hs : s.Atom)
        (h : (∀ t ∈ ss, t.Atom) ∧ Shape.sizes ss ≤ rest.length) :
        (∀ t ∈ s :: ss, t.Atom) ∧ Shape.sizes (s :: ss) ≤ (member :: rest).length := by
      rw [Shape.sizes, hs.size_eq, List.length_cons]
      exact ⟨List.forall_mem_cons.mpr ⟨hs, h.1⟩, by omega⟩
    rw [enumShapes] at h
    split at h
    · dsimp only at h
      split at h
      · obtain ⟨_, _, h⟩ := bind_eq_ok.mp h
        obtain ⟨ss, hss, h⟩ := bind_eq_ok.mp h
        cases h
        exact cons (.literal _) (ih hss)
      · obtain ⟨x?, _, h⟩ := bind_eq_ok.mp h
        cases x? with
        | none =>
          obtain ⟨ss, hss, h⟩ := bind_eq_ok.mp h
          cases h
          exact cons (.primitive _) (ih hss)
        | some x =>
          obtain ⟨ss, hss, h⟩ := bind_eq_ok.mp h
          cases h
          exact cons (.literal _) (ih hss)
    · obtain ⟨ss, hss, h⟩ := bind_eq_ok.mp h
      cases h
      exact cons (.literal _) (ih hss)
    · obtain ⟨ss, hss, h⟩ := bind_eq_ok.mp h
      cases h
      exact cons (.literal _) (ih hss)
    · obtain ⟨atoms, small⟩ := ih h
      exact ⟨atoms, small.trans (Nat.le_succ _)⟩

theorem length_le_sizes (ns : List Node) : ns.length ≤ Node.sizes ns := by
  induction ns with
  | nil => exact le_rfl
  | cons n ns ih =>
    have first := Node.size_eq n
    rw [List.length_cons, Node.sizes]
    omega

theorem enumShape_eq_ok {declaration : Node} {s : Shape}
    (h : file.enumShape declaration = .ok s) :
    ∃ members, s = .union members ∧ (∀ m ∈ members, m.Atom) ∧ s.size ≤ declaration.size := by
  obtain ⟨members, hmembers, h⟩ := bind_eq_ok.mp h
  cases h
  obtain ⟨atoms, small⟩ := atom_of_mem_enumShapes hmembers
  refine ⟨members, rfl, atoms, ?_⟩
  have whole := Node.size_eq declaration
  rw [Shape.size]
  cases body : declaration.child? .body with
  | none =>
    rw [body] at small
    simp only [Option.map_none, Option.getD_none, List.length_nil] at small
    omega
  | some n =>
    obtain ⟨front, back, children⟩ := List.append_of_mem (List.mem_of_find?_eq_some body)
    rw [children, Node.sizes_append, Node.sizes, Node.size_eq n] at whole
    rw [body] at small
    have inside := small.trans (length_le_sizes n.children)
    omega

end SourceFile

/-! ### What references stand for -/

section

open Outcome (bind_eq_ok)

variable {known : SourceFile → Prop}

/-- The declarations of a name give a genuine shape, which is no larger than the file they are
written in. -/
theorem Shape.genuine_ofDeclarations {name : Text} {declarations : List Site} {t : Shape}
    (gathered : Gathered known declarations)
    (h : Shape.ofDeclarations name declarations = .ok (some t)) :
    t.Genuine known ∧ ∃ file, known file ∧ t.size ≤ file.tree.size := by
  rcases gathered with rfl | ⟨file, scope, name', hf, within, isScope, rfl⟩
  · cases h
  · generalize hd : file.declarationsIn .type name' scope = declarations at h
    cases declarations with
    | nil => cases h
    | cons first rest =>
      have site : first.Of known := .declaration hf within (hd ▸ List.mem_cons_self)
      have nonempty := Node.size_eq first.file.tree
      rw [Shape.ofDeclarations] at h
      split at h
      · obtain ⟨s, hs, h⟩ := bind_eq_ok.mp h
        cases h
        cases value : first.child? .value with
        | none =>
          rw [value] at hs
          cases hs
          exact ⟨.primitive _, first.file, site.file, nonempty ▸ Nat.le_add_left _ _⟩
        | some v =>
          rw [value] at hs
          have hv := site.child? value
          refine ⟨v.genuine_shape hv hs, v.file, hv.file, v.size_shape hv hs⟩
      · next kind =>
        cases h
        refine ⟨.interface ⟨?_, file, scope, name', hf, within, isScope, by rw [hd]⟩,
          first.file, site.file, nonempty ▸ Nat.le_add_left _ _⟩
        rw [List.filter_cons_of_pos (by simp [kind])]
        exact List.cons_ne_nil _ _
      · obtain ⟨s, hs, h⟩ := bind_eq_ok.mp h
        cases h
        obtain ⟨members, rfl, atoms, small⟩ := SourceFile.enumShape_eq_ok hs
        exact ⟨.union fun m hm => (atoms m hm).genuine, first.file, site.file,
          small.trans (Place.size_le_root site.place)⟩
      · cases h

namespace Program

variable {p : Program} {s t : Shape} (lib : Library known) (hp : p.Of known)

/-- The target of a reference is its argument, a record of its arguments, or what its declarations
give. -/
theorem target_cases {name : Text} {arguments : List Shape} {site : Site}
    (h : p.target? (.reference name arguments site) = .ok (some t)) :
    arguments = [t] ∨ (∃ key value, arguments = [key, value] ∧ t = .record key value site) ∨
      Shape.ofDeclarations name (p.typeDeclarations name site) = .ok (some t) := by
  unfold target? at h
  dsimp only at h
  split at h
  · split at h
    · cases h
      exact .inl rfl
    · exact .inr (.inr h)
  · split at h
    · cases h
      exact .inr (.inl ⟨_, _, rfl, rfl⟩)
    · exact .inr (.inr h)
  · exact .inr (.inr h)

theorem reference_of_target (h : p.target? s = .ok (some t)) :
    ∃ name arguments site, s = .reference name arguments site := by
  cases s
  case reference name arguments site => exact ⟨name, arguments, site, rfl⟩
  all_goals cases h

include lib hp

/-- References lead from genuine shapes to genuine shapes. -/
theorem genuine_target (hs : s.Genuine known) (h : p.target? s = .ok (some t)) :
    t.Genuine known := by
  obtain ⟨name, arguments, site, rfl⟩ := reference_of_target h
  cases hs with
  | reference hsite tag shape inside =>
    rcases target_cases h with rfl | ⟨key, value, rfl, rfl⟩ | h
    · exact inside t List.mem_cons_self
    · exact .record (inside key (by simp)) (inside value (by simp)) hsite
    · exact (Shape.genuine_ofDeclarations (gathered_typeDeclarations lib hp hsite name) h).1

/-- References lead to shapes that are no larger than they are or than the files. -/
theorem size_target {bound : Nat} (small : ∀ f, known f → f.tree.size ≤ bound)
    (hs : s.Genuine known) (hsize : s.size ≤ bound) (h : p.target? s = .ok (some t)) :
    t.size ≤ bound := by
  obtain ⟨name, arguments, site, rfl⟩ := reference_of_target h
  cases hs with
  | reference hsite tag shape inside =>
    rw [Shape.size] at hsize
    rcases target_cases h with rfl | ⟨key, value, rfl, rfl⟩ | h
    · rw [Shape.sizes] at hsize
      omega
    · simp only [Shape.sizes] at hsize
      rw [Shape.size]
      omega
    · obtain ⟨_, file, hf, le⟩ :=
        Shape.genuine_ofDeclarations (gathered_typeDeclarations lib hp hsite name) h
      exact le.trans (small file hf)

end Program

end

/-! ### Aliases of a file -/

/-- A file system with one source file. -/
def FileSystem.ofSource (path : Path) (source : String) : FileSystem :=
  (FileSystem.empty ⟨false, []⟩).write path source.toUTF8

/-- The program of a file, and the value of an alias at the top of the file. -/
def Program.withAlias? (fs : FileSystem) (path : Path) (name : Text) :
    Option (Program × Site) := do
  let p ← (Program.load fs [] [path]).toOption
  let m ← p.module? path
  let declaration ← (m.file.topDeclarations .type name).head?
  let value ← declaration.child? .value
  return (p, value)

theorem Program.withAlias?_eq_some {fs : FileSystem} {path : Path} {name : Text} {p : Program}
    {value : Site} (h : withAlias? fs path name = some (p, value)) :
    load fs [] [path] = .ok p ∧ value.Of (SourceFile.ReadFrom fs) := by
  obtain ⟨p', hp, h⟩ := Option.bind_eq_some_iff.mp h
  obtain ⟨m, hm, h⟩ := Option.bind_eq_some_iff.mp h
  obtain ⟨declaration, hd, h⟩ := Option.bind_eq_some_iff.mp h
  obtain ⟨value', hv, h⟩ := Option.bind_eq_some_iff.mp h
  cases h
  have loaded : load fs [] [path] = .ok p := by
    cases result : load fs [] [path] with
    | error e =>
      rw [result] at hp
      cases hp
    | ok q =>
      rw [result] at hp
      cases hp
      rfl
  have known := known_of_module? (of_load loaded) hm
  have found := List.mem_of_mem_head? hd
  exact ⟨loaded, (Site.Of.declaration known .root found).child? hv⟩

end ParamSchema
