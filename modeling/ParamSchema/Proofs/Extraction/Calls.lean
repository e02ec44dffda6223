import ParamSchema.Proofs.Layout.Basic
import ParamSchema.Proofs.Places
import ParamSchema.Proofs.Program.Load

/-!
The declarations of an entry, one for each call of the declaring function. The calls are told by
the syntax trees of the collected files alone (`Extraction.callsAt`): in the order of the files, and
in each file that can be scanned in the order of its nodes. The declarations stand to them one to
one and in their order (`Extraction.declarations_match_calls`).
-/

namespace ParamSchema

/-! ### Calls -/

namespace Declaration

/-- Whether a node of a file calls a function by its plain name. -/
def isCallOf (function : Text) (file : SourceFile) (n : Node) : Bool :=
  n.kind == .callExpression &&
    (n.child? .function).any fun f => f.kind == .identifier && file.textOf f == function

theorem isCall_eq (function : Text) (file : SourceFile) (p : Place) :
    isCall function ⟨file, p⟩ = isCallOf function file p.node := by
  unfold isCall isCallOf Site.child?
  rw [← Place.map_node_child?, Option.any_map, Option.any_map]
  rfl

/-- The calls of a file are the nodes that call the function, in source order. -/
theorem map_node_callSites (function : Text) (file : SourceFile) :
    (callSites function file).map Site.node =
      file.tree.preorder.filter (isCallOf function file) := by
  unfold callSites SourceFile.sites
  have nodes : file.tree.preorder = file.root.walk.map Place.node :=
    (Place.map_node_walk file.root).symm
  rw [nodes, List.filter_map, List.filter_map, List.map_map]
  have same : isCall function ∘ Site.mk file = isCallOf function file ∘ Place.node := by
    funext p
    exact isCall_eq function file p
  rw [same]
  rfl

theorem file_of_mem_callSites {function : Text} {file : SourceFile} {s : Site}
    (h : s ∈ callSites function file) : s.file = file ∧ s.place ∈ file.root.walk := by
  obtain ⟨origin, within, -⟩ := SourceFile.mem_sites_iff.mp h
  exact ⟨origin, Place.mem_walk_iff.mpr within⟩

/-- A declaration stands where its call stands. -/
theorem of_ofCall {r : Resolver} {tags : List TypeTag} {reach : Int} {call : Site} {d : Declaration}
    (h : ofCall r tags reach call = .ok d) : d.path = call.file.path ∧ d.line = call.line := by
  unfold ofCall at h
  dsimp only at h
  split at h
  · obtain ⟨_, _, h⟩ := Outcome.bind_eq_ok.mp h
    obtain ⟨_, _, h⟩ := Outcome.bind_eq_ok.mp h
    obtain ⟨_, _, h⟩ := Outcome.bind_eq_ok.mp h
    obtain rfl := Outcome.pure_eq_ok.mp h
    exact ⟨rfl, rfl⟩
  · obtain ⟨_, _, h⟩ := Outcome.bind_eq_ok.mp h
    obtain ⟨_, _, h⟩ := Outcome.bind_eq_ok.mp h
    obtain rfl := Outcome.pure_eq_ok.mp h
    exact ⟨rfl, rfl⟩

/-- Whether a file follows the grammar and what each of its calls declares can be told. -/
def isScannable (r : Resolver) (file : SourceFile) : Bool :=
  file.tree.preorder.all (·.kind != .error) &&
    (callSites defaultFunction file).all fun s =>
      (ofCall r (TypeTag.all file.text) TypeTag.defaultReach s).isOk

theorem scan_eq_ok_iff {r : Resolver} {function : Text} {reach : Int} {file : SourceFile}
    {ds : List Declaration} :
    scan r function reach file = .ok ds ↔ file.hasErrors = false ∧
      List.Forall₂ (fun s d => ofCall r (TypeTag.all file.text) reach s = .ok d)
        (callSites function file) ds := by
  rw [← Outcome.mapM_eq_ok]
  unfold scan
  cases file.hasErrors with
  | true => simp
  | false =>
    cases (callSites function file).mapM (ofCall r (TypeTag.all file.text) reach) with
    | error cause => simp [Except.mapError]
    | ok ds' => simp [Except.mapError]

theorem isScannable_iff (r : Resolver) (file : SourceFile) :
    isScannable r file = true ↔
      ∃ ds, scan r defaultFunction TypeTag.defaultReach file = .ok ds := by
  have grammar : file.tree.preorder.all (·.kind != .error) = true ↔ file.hasErrors = false := by
    simp [SourceFile.hasErrors]
  simp only [isScannable, Bool.and_eq_true, grammar, scan_eq_ok_iff, exists_and_left,
    and_congr_right_iff, ← Outcome.mapM_eq_ok]
  intro _
  constructor
  · intro all
    cases result : (callSites defaultFunction file).mapM
        (ofCall r (TypeTag.all file.text) TypeTag.defaultReach) with
    | ok ds => exact ⟨ds, rfl⟩
    | error cause =>
      obtain ⟨s, hs, failure⟩ := Outcome.exists_of_mapM_eq_error result
      have told := List.all_eq_true.mp all s hs
      rw [failure] at told
      cases told
  · rintro ⟨ds, result⟩
    refine List.all_eq_true.mpr ?_
    intro s hs
    obtain ⟨d, _, told⟩ := Outcome.exists_ok_of_mapM result hs
    rw [told]
    rfl

end Declaration

/-! ### Declarations of an entry -/

namespace ModuleGraph

variable {fs : FileSystem} {extensions : List Text} {entry p : Path}

theorem reachable_of_mem_collect (h : p ∈ collect fs extensions entry) :
    Relation.ReflTransGen (Imports fs extensions) entry p := by
  obtain ⟨marked, visits, order⟩ := exists_visits_collect fs extensions entry
  rw [order] at h
  have route := (visits.mem_iff_reachable p).mp (List.mem_reverse.mp (List.mem_of_mem_filter h))
  exact route.lift id fun _ _ => mem_successors_iff.mp

theorem nodup_collect : (collect fs extensions entry).Nodup := by
  obtain ⟨marked, visits, order⟩ := exists_visits_collect fs extensions entry
  rw [order]
  exact (List.nodup_reverse.mpr (visits.nodup List.nodup_nil)).filter _

end ModuleGraph

namespace Extraction

open Declaration

/-- The calls of the declaring function in the file of a path, each with the path. A file that
cannot be read or scanned has none. -/
def callsAt (fs : FileSystem) (r : Resolver) (path : Path) : List (Path × Node) :=
  match SourceFile.read fs path with
  | .ok file =>
    if isScannable r file then
      (file.tree.preorder.filter (isCallOf defaultFunction file)).map (path, ·)
    else []
  | .error _ => []

/-- A declaration is that of a call: it has the path and the line of the call and says what the call
declares in its place in the file. -/
def DeclaredBy (fs : FileSystem) (r : Resolver) (d : Declaration) (call : Path × Node) : Prop :=
  d.path = call.1 ∧ d.line = call.2.line ∧
    ∃ s : Site, SourceFile.read fs call.1 = .ok s.file ∧ s.place ∈ s.file.root.walk ∧
      s.node = call.2 ∧ ofCall r (TypeTag.all s.file.text) TypeTag.defaultReach s = .ok d

/-- The files of the program of some paths are those that are read. -/
theorem sourceFile?_resolverFor (fs : FileSystem) (paths : List Path) (path : Path) :
    sourceFile? fs (resolverFor fs paths) path = SourceFile.read fs path := by
  unfold resolverFor
  cases loaded : Program.load fs Specifier.defaultExtensions paths with
  | error e => rfl
  | ok p =>
    cases found : p.module? path with
    | none => simp [sourceFile?, found]
    | some m =>
      have read := ((Program.leastClosed_of_load loaded).read path m found).1
      simp [sourceFile?, found, read]

/-- The declarations of a file are those of its calls. -/
theorem declarationsOf_match {fs : FileSystem} {r : Resolver} {path : Path}
    (same : sourceFile? fs r path = SourceFile.read fs path) :
    List.Forall₂ (DeclaredBy fs r) (declarationsOf fs r path) (callsAt fs r path) := by
  unfold declarationsOf callsAt
  rw [same]
  cases read : SourceFile.read fs path with
  | error e => exact .nil
  | ok file =>
    dsimp only
    cases result : scan r defaultFunction TypeTag.defaultReach file with
    | error e =>
      have refused : isScannable r file ≠ true := by
        rw [Ne, isScannable_iff, result]
        rintro ⟨_, h⟩
        cases h
      rw [if_neg refused]
      exact .nil
    | ok ds =>
      rw [if_pos ((isScannable_iff r file).mpr ⟨ds, result⟩), ← map_node_callSites,
        List.map_map]
      obtain ⟨_, told⟩ := scan_eq_ok_iff.mp result
      have placed : ∀ s ∈ callSites defaultFunction file,
          s.file = file ∧ s.place ∈ file.root.walk :=
        fun _ hs => file_of_mem_callSites hs
      refine (List.forall₂_map_left_iff.mpr ?_).flip
      refine List.Forall₂.imp ?_ ((List.forall₂_and_left _ _).mpr ⟨placed, told⟩)
      rintro s d ⟨⟨rfl, hs⟩, hd⟩
      obtain ⟨path_eq, line_eq⟩ := of_ofCall hd
      exact ⟨path_eq.trans (SourceFile.path_of_read read), line_eq, s, read, hs, rfl, hd⟩

theorem path_of_mem_callsAt {fs : FileSystem} {r : Resolver} {path : Path} {call : Path × Node}
    (h : call ∈ callsAt fs r path) : call.1 = path := by
  unfold callsAt at h
  split at h
  · split at h
    · obtain ⟨n, _, rfl⟩ := List.mem_map.mp h
      rfl
    · cases h
  · cases h

/-- The declarations of an entry stand one to one, and in the same order, to the calls in the files
that it needs through imports. A file that cannot be scanned has no calls and changes nothing for
the others, and a file that is only exported from is not among the files. -/
theorem declarations_match_calls (fs : FileSystem) (entry : Path) :
    let files := ModuleGraph.collect fs Specifier.defaultExtensions entry
    let r := resolverFor fs files
    List.Forall₂ (DeclaredBy fs r) (ofEntry fs entry).declarations
      (files.flatMap (callsAt fs r)) ∧
    (∀ d ∈ (ofEntry fs entry).declarations, d.path ∈ files) ∧
    files.Nodup ∧
    (∀ path ∈ files, (∃ file, SourceFile.read fs path = .ok file) ∧
      Relation.ReflTransGen (ModuleGraph.Imports fs Specifier.defaultExtensions) entry path) ∧
    ∀ file, isScannable r file = true ↔
      ∃ ds, scan r defaultFunction TypeTag.defaultReach file = .ok ds := by
  intro files r
  have perFile (path : Path) :
      List.Forall₂ (DeclaredBy fs r) (declarationsOf fs r path) (callsAt fs r path) :=
    declarationsOf_match (sourceFile?_resolverFor fs files path)
  have pairs : List.Forall₂ (DeclaredBy fs r) (ofEntry fs entry).declarations
      (files.flatMap (callsAt fs r)) :=
    List.rel_flatMap (List.forall₂_same.mpr fun _ _ => rfl) fun path _ (same : path = _) =>
      same ▸ perFile path
  have paths : (ofEntry fs entry).declarations.map Declaration.path =
      (files.flatMap (callsAt fs r)).map Prod.fst := by
    rw [← List.forall₂_eq_eq_eq, List.forall₂_map_left_iff, List.forall₂_map_right_iff]
    exact pairs.imp fun _ _ declared => declared.1
  refine ⟨pairs, ?_, ModuleGraph.nodup_collect, ?_, isScannable_iff r⟩
  · intro d hd
    have mem := List.mem_map_of_mem (f := Declaration.path) hd
    rw [paths] at mem
    obtain ⟨call, hcall, same⟩ := List.mem_map.mp mem
    obtain ⟨path, hp, hcall⟩ := List.mem_flatMap.mp hcall
    rwa [← same, path_of_mem_callsAt hcall]
  · intro path hp
    have can : fs.isReadable path = true := (List.mem_filter.mp hp).2
    exact ⟨SourceFile.read_of_isReadable can, ModuleGraph.reachable_of_mem_collect hp⟩

end Extraction

end ParamSchema
