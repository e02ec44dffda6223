import ParamSchema.Proofs.ModuleGraph
import ParamSchema.Proofs.Program.Load

/-!
Comments and the graph of imports. A comment may stand between any two tokens of an import or of a
call that loads a module. Without its comments a tree has all the specifiers that it has with them,
and one more for each call in which a comment comes before the string
(`ModuleGraph.specifiers_without_comments`): the first argument of a call is the first part that is
not a mere token, and that is the comment then.
-/

namespace ParamSchema

namespace Node

/-- A comment as it stands in a tree: it has no parts, and no role in the node around it. -/
def isPlainComment (n : Node) : Bool := n.isComment && n.role.isNone && n.children.isEmpty

mutual

/-- A tree with all comments removed. -/
def withoutComments : Node → Node
  | .mk kind role start stop line children =>
    .mk kind role start stop line (uncommented children)

def uncommented : List Node → List Node
  | [] => []
  | n :: ns => if n.isPlainComment then uncommented ns else n.withoutComments :: uncommented ns

end

theorem uncommented_eq (ns : List Node) :
    uncommented ns = (ns.filter (!·.isPlainComment)).map withoutComments := by
  induction ns with
  | nil => rfl
  | cons n ns ih =>
    rw [uncommented, ih]
    cases h : n.isPlainComment <;> simp [h]

@[simp] theorem kind_withoutComments (n : Node) : n.withoutComments.kind = n.kind := by
  cases n
  rfl

@[simp] theorem role_withoutComments (n : Node) : n.withoutComments.role = n.role := by
  cases n
  rfl

theorem children_withoutComments (n : Node) :
    n.withoutComments.children = (n.children.filter (!·.isPlainComment)).map withoutComments := by
  cases n
  exact uncommented_eq _

/-- What is looked for among the parts, and is no comment, is found without the comments too. -/
theorem find?_withoutComments {p : Node → Bool} (n : Node)
    (same : ∀ m : Node, p m.withoutComments = p m)
    (proper : ∀ m : Node, p m = true → m.isPlainComment = false) :
    n.withoutComments.children.find? p = (n.children.find? p).map withoutComments := by
  rw [children_withoutComments, List.find?_map, List.find?_filter]
  congr 2
  funext m
  cases found : p m with
  | false => simp [same, found]
  | true => simp [same, found, proper m found]

@[simp] theorem isNamed_withoutComments (n : Node) : n.withoutComments.isNamed = n.isNamed := by
  rw [isNamed, kind_withoutComments, isNamed]

theorem kind_of_isPlainComment {n : Node} (h : n.isPlainComment = true) : n.kind = .comment := by
  rw [isPlainComment, isComment] at h
  grind

theorem isPlainComment_of_kind {n : Node} (h : n.kind ≠ .comment) : n.isPlainComment = false := by
  simp [isPlainComment, isComment, h]

theorem child?_withoutComments (n : Node) (role : Role) :
    n.withoutComments.child? role = (n.child? role).map withoutComments := by
  apply find?_withoutComments
  · intro m
    rw [role_withoutComments]
  · intro m found
    simp [isPlainComment, eq_of_beq found]

/-- The last part of a kind, where that is not the kind of comments. -/
theorem getLast?_withoutComments (n : Node) {kind : Kind} (h : kind ≠ .comment) :
    (n.withoutComments.children.filter (·.kind == kind)).getLast? =
      (n.children.filter (·.kind == kind)).getLast?.map withoutComments := by
  rw [children_withoutComments, List.filter_map, List.filter_filter, List.getLast?_map]
  congr 3
  funext m
  cases found : m.kind == kind with
  | false => simp [found]
  | true => simp [found, isPlainComment_of_kind (eq_of_beq found ▸ h)]

mutual

/-- What is gathered from the nodes of a tree without its comments is gathered from the nodes of the
tree. -/
theorem filterMap_preorder {α : Type} {f : Node → Option α}
    (none : ∀ n : Node, n.isPlainComment = true → f n.withoutComments = none) :
    (n : Node) → n.withoutComments.preorder.filterMap f =
      n.preorder.filterMap fun m => f m.withoutComments
  | .mk kind role start stop line children => by
    rw [withoutComments, preorder, preorder, List.filterMap_cons, List.filterMap_cons,
      filterMap_preorders none children, withoutComments]

theorem filterMap_preorders {α : Type} {f : Node → Option α}
    (none : ∀ n : Node, n.isPlainComment = true → f n.withoutComments = none) :
    (ns : List Node) → (preorders (uncommented ns)).filterMap f =
      (preorders ns).filterMap fun m => f m.withoutComments
  | [] => rfl
  | n :: ns => by
    have first := filterMap_preorder none n
    have rest := filterMap_preorders none ns
    rw [preorders, List.filterMap_append, ← first, uncommented]
    split
    · next comment =>
      -- A comment has no parts, so nothing but itself goes with it.
      have bare : n.withoutComments.preorder = [n.withoutComments] := by
        cases n with
        | mk kind role start stop line children =>
          simp only [isPlainComment, Bool.and_eq_true, List.isEmpty_iff] at comment
          rw [show children = [] from comment.2]
          rfl
      rw [bare, List.filterMap_cons_none (none n comment), rest]
      rfl
    · rw [preorders, List.filterMap_append, rest]

end

end Node

namespace SourceFile

/-- A file whose tree has all comments removed. The text is the same. -/
def withoutComments (file : SourceFile) : SourceFile :=
  { file with tree := file.tree.withoutComments }

variable (file : SourceFile)

@[simp] theorem textOf_withoutComments (n : Node) :
    file.textOf n.withoutComments = file.textOf n := by
  cases n
  rfl

theorem specifierOf?_map (source : Option Node) :
    file.specifierOf? (source.map Node.withoutComments) = file.specifierOf? source := by
  cases source with
  | none => rfl
  | some n => simp [specifierOf?, inner]

theorem specifierOf?_comment {n : Node} (comment : n.isPlainComment = true) :
    file.specifierOf? (some n) = none := by
  simp [specifierOf?, Node.kind_of_isPlainComment comment]

/-! ### Imports -/

theorem requiredSource?_withoutComments (clause : Node) :
    requiredSource? clause.withoutComments =
      (requiredSource? clause).map Node.withoutComments := by
  have search : clause.withoutComments.children.find? (·.kind == .string) =
      (clause.children.find? (·.kind == .string)).map Node.withoutComments := by
    apply Node.find?_withoutComments
    · intro m
      rw [Node.kind_withoutComments]
    · intro m found
      exact Node.isPlainComment_of_kind (by simp [eq_of_beq found])
  rw [requiredSource?, requiredSource?, Node.child?_withoutComments, search]
  cases clause.child? .source <;> rfl

theorem importSource?_withoutComments (n : Node) :
    importSource? n.withoutComments = (importSource? n).map Node.withoutComments := by
  rw [importSource?, importSource?, Node.child?_withoutComments,
    Node.getLast?_withoutComments n (by decide)]
  cases n.child? .source with
  | some source => rfl
  | none =>
    cases (n.children.filter (·.kind == .importRequireClause)).getLast? with
    | none => rfl
    | some clause => exact requiredSource?_withoutComments clause

/-! ### Calls -/

theorem loadsModule_withoutComments (call : Node) :
    file.loadsModule call.withoutComments = file.loadsModule call := by
  rw [loadsModule, loadsModule, Node.child?_withoutComments]
  cases call.child? .function <;> simp

/-- The first argument of a call that is not a comment. -/
def properArgument? (call : Node) : Option Node :=
  (call.child? .arguments).bind
    (·.children.find? fun n => n.isNamed && !n.isPlainComment)

theorem firstArgument?_withoutComments (call : Node) :
    firstArgument? call.withoutComments = (properArgument? call).map Node.withoutComments := by
  rw [firstArgument?, properArgument?, Node.child?_withoutComments]
  cases call.child? .arguments with
  | none => rfl
  | some arguments =>
    rw [Option.map_some, Option.bind_some, Option.bind_some, Node.children_withoutComments,
      List.find?_map, List.find?_filter]
    congr 2
    funext m
    cases m.isPlainComment <;> simp

/-- Whether a call loads the module of a string that stands behind a comment. -/
def hidesArgument (call : Node) : Bool :=
  call.kind == .callExpression && file.loadsModule call &&
    (firstArgument? call).any Node.isPlainComment && (properArgument? call).any (·.kind == .string)

/-- Whether no comment hides the argument of a call that loads a module. -/
def showsArguments : Bool := file.tree.preorder.all (!file.hidesArgument ·)

/-- If the first that satisfies `p` also satisfies `q`, it is the first that satisfies both. -/
theorem find?_and {α : Type} {p q : α → Bool} {l : List α}
    (h : ∀ a, l.find? p = some a → q a = true) :
    (l.find? fun a => p a && q a) = l.find? p := by
  induction l with
  | nil => rfl
  | cons a l ih =>
    rw [List.find?_cons, List.find?_cons]
    rw [List.find?_cons] at h
    cases found : p a with
    | false =>
      rw [found] at h
      exact ih h
    | true =>
      rw [found] at h
      rw [h a rfl]
      rfl

theorem properArgument?_eq {call : Node}
    (first : (firstArgument? call).any Node.isPlainComment = false) :
    properArgument? call = firstArgument? call := by
  rw [firstArgument?] at first ⊢
  rw [properArgument?]
  cases found : call.child? .arguments with
  | none => rfl
  | some arguments =>
    rw [found, Option.bind_some] at first
    rw [Option.bind_some, Option.bind_some]
    apply find?_and
    intro n hn
    rw [hn] at first
    rw [Bool.not_eq_true']
    exact first

/-- A call whose string stands behind a comment has a specifier only without its comments; any other
node has the same specifier with them and without them. -/
theorem nodeSpecifier?_withoutComments (n : Node) :
    (file.hidesArgument n = true →
      file.nodeSpecifier? n = none ∧ (file.nodeSpecifier? n.withoutComments).isSome = true) ∧
    (file.hidesArgument n = false →
      file.nodeSpecifier? n = file.nodeSpecifier? n.withoutComments) := by
  unfold nodeSpecifier? hidesArgument
  rw [Node.kind_withoutComments]
  split
  · next kind =>
    rw [importSource?_withoutComments, specifierOf?_map, kind]
    exact ⟨nofun, fun _ => rfl⟩
  · next kind =>
    rw [loadsModule_withoutComments, firstArgument?_withoutComments, specifierOf?_map, kind]
    cases file.loadsModule n with
    | false => exact ⟨nofun, fun _ => rfl⟩
    | true =>
      cases first : (firstArgument? n).any Node.isPlainComment with
      | false =>
        rw [properArgument?_eq first]
        exact ⟨nofun, fun _ => rfl⟩
      | true =>
        have comment : file.specifierOf? (firstArgument? n) = none := by
          obtain ⟨m, found, plain⟩ := (Option.any_eq_true ..).mp first
          rw [found]
          exact specifierOf?_comment file plain
        rw [if_pos rfl, if_pos rfl, comment]
        cases properArgument? n with
        | none => exact ⟨nofun, fun _ => rfl⟩
        | some argument => cases string : argument.kind == .string <;> simp [specifierOf?, string]
  · next import_ call =>
    have kind : (n.kind == .callExpression) = false := by simpa using call
    rw [kind]
    exact ⟨nofun, fun _ => rfl⟩

/-! ### Whole files -/

/-- Where `g` gives something for the marked elements, for which `f` gives nothing, and the same as
`f` for all others, it gives what `f` gives and one more for each marked element. -/
theorem filterMap_marked {α β : Type} {f g : α → Option β} {marked : α → Bool} {l : List α}
    (hidden : ∀ a, marked a = true → f a = none ∧ (g a).isSome = true)
    (same : ∀ a, marked a = false → f a = g a) :
    (l.filterMap f).Sublist (l.filterMap g) ∧
      (l.filterMap g).length = (l.filterMap f).length + l.countP marked := by
  induction l with
  | nil => exact ⟨.slnil, rfl⟩
  | cons a l ih =>
    obtain ⟨sublist, length⟩ := ih
    cases mark : marked a with
    | true =>
      obtain ⟨nothing, something⟩ := hidden a mark
      obtain ⟨b, hb⟩ := Option.isSome_iff_exists.mp something
      rw [List.filterMap_cons_none nothing, List.filterMap_cons_some hb,
        List.countP_cons_of_pos mark, List.length_cons, length]
      exact ⟨sublist.cons b, rfl⟩
    | false =>
      rw [List.countP_cons_of_neg (by simp [mark]), List.filterMap_cons, List.filterMap_cons,
        same a mark]
      cases g a with
      | none => exact ⟨sublist, length⟩
      | some b =>
        rw [List.length_cons, List.length_cons, length]
        exact ⟨sublist.cons_cons b, by omega⟩

/-- The specifiers of a file without its comments, from the nodes of the file. -/
theorem specifiers_withoutComments_eq :
    file.withoutComments.specifiers =
      file.tree.preorder.filterMap fun n => file.nodeSpecifier? n.withoutComments := by
  apply Node.filterMap_preorder
  intro n comment
  rw [nodeSpecifier?, Node.kind_withoutComments, Node.kind_of_isPlainComment comment]

theorem specifiers_uncommented (file : SourceFile) :
    file.specifiers.Sublist file.withoutComments.specifiers ∧
      file.withoutComments.specifiers.length =
        file.specifiers.length + file.tree.preorder.countP file.hidesArgument := by
  rw [specifiers_withoutComments_eq]
  apply filterMap_marked
  · intro n
    exact (nodeSpecifier?_withoutComments file n).1
  · intro n
    exact (nodeSpecifier?_withoutComments file n).2

/-- Comments change the specifiers of a file only where they hide an argument. -/
theorem specifiers_eq_iff (file : SourceFile) :
    file.specifiers = file.withoutComments.specifiers ↔ file.showsArguments = true := by
  obtain ⟨sublist, length⟩ := specifiers_uncommented file
  have none : file.showsArguments = true ↔ file.tree.preorder.countP file.hidesArgument = 0 := by
    simp [showsArguments, List.countP_eq_zero]
  rw [none]
  constructor
  · intro same
    rw [same] at length
    omega
  · intro zero
    exact sublist.eq_of_length (by omega)

end SourceFile

namespace ModuleGraph

variable {fs : FileSystem} {extensions : List Text}

/-- The files that a path refers to when all comments are removed. -/
def uncommentedSuccessors (fs : FileSystem) (extensions : List Text) (path : Path) : List Path :=
  ((SourceFile.read fs path).map fun file =>
    file.withoutComments.references fs extensions).toOption.getD []

theorem successors_eq_uncommented {path : Path} {file : SourceFile}
    (read : SourceFile.read fs path = .ok file) (shown : file.showsArguments = true) :
    successors fs extensions path = uncommentedSuccessors fs extensions path := by
  rw [successors, uncommentedSuccessors, read]
  show file.references fs extensions = file.withoutComments.references fs extensions
  rw [SourceFile.references, SourceFile.references, (SourceFile.specifiers_eq_iff file).mpr shown]
  rfl

theorem successors_eq_uncommented_of_error {path : Path} {e : ReadFault}
    (read : SourceFile.read fs path = .error e) :
    successors fs extensions path = uncommentedSuccessors fs extensions path := by
  rw [successors, uncommentedSuccessors, read]
  rfl

/-- The search through the files without their comments collects the same files, in the same
order, when none of these files hides an argument. -/
theorem visits_uncommented {entry : Path}
    (shown : ∀ path ∈ collect fs extensions entry,
      (SourceFile.read fs path).map SourceFile.showsArguments = .ok true) :
    ∃ marked, Search.Visits (uncommentedSuccessors fs extensions) fs.isReadable [] [entry]
      (collect fs extensions entry) marked := by
  obtain ⟨marked, visits, order⟩ := exists_visits_collect fs extensions entry
  refine ⟨marked, visits.congr ?_⟩
  intro path mem
  cases read : SourceFile.read fs path with
  | error e => exact successors_eq_uncommented_of_error read
  | ok file =>
    -- A marked path that can be read is collected.
    have collected : path ∈ collect fs extensions entry := by
      rw [order, List.mem_filter, List.mem_reverse]
      exact ⟨mem, SourceFile.isReadable_of_read read⟩
    have shows := shown path collected
    rw [read] at shows
    exact successors_eq_uncommented read (Except.ok.inj shows)

/-- A file has all its specifiers when its comments are removed, and one more for each call that
loads a module whose string stands behind a comment; so comments leave the specifiers as they are
just when there is no such call. When no collected file has such a call, the depth-first search
through the files without their comments collects the same files. -/
theorem specifiers_without_comments (file : SourceFile) (fs : FileSystem)
    (extensions : List Text) (entry : Path) :
    file.specifiers.Sublist file.withoutComments.specifiers ∧
    file.withoutComments.specifiers.length =
      file.specifiers.length + file.tree.preorder.countP file.hidesArgument ∧
    (file.specifiers = file.withoutComments.specifiers ↔ file.showsArguments = true) ∧
    ((∀ path ∈ collect fs extensions entry,
        (SourceFile.read fs path).map SourceFile.showsArguments = .ok true) →
      ∃ marked, Search.Visits (uncommentedSuccessors fs extensions) fs.isReadable [] [entry]
        (collect fs extensions entry) marked) := by
  obtain ⟨sublist, length⟩ := SourceFile.specifiers_uncommented file
  refine ⟨sublist, length, SourceFile.specifiers_eq_iff file, ?_⟩
  intro shown
  exact visits_uncommented shown

/-- Comments between all other tokens of imports and loading calls, in the entry and in a file that
it needs, do not change what is collected. -/
theorem specifiers_with_comments_around :
    let path (name : String) : Path := ⟨false, [txt name]⟩
    let fs := (((FileSystem.empty ⟨false, []⟩).write (path "a.ts")
        "import /* 1 */ \x7b /* 2 */ T /* 3 */ \x7d /* 4 */ from /* 5 */ './b' // 6
require /* 7 */ ('./c' /* 8 */) ".toUTF8).write (path "b.ts")
        "import t /* 1 */ = require /* 2 */ ( /* 3 */ './c'); import /* 4 */ ('./d')".toUTF8).write
        (path "c.ts") "".toUTF8
    collect fs [txt ".ts"] (path "a.ts") = [path "a.ts", path "b.ts", path "c.ts"] ∧
    ∃ marked, Search.Visits (uncommentedSuccessors fs [txt ".ts"]) fs.isReadable [] [path "a.ts"]
      [path "a.ts", path "b.ts", path "c.ts"] marked := by
  intro path fs
  have collected : collect fs [txt ".ts"] (path "a.ts") =
      [path "a.ts", path "b.ts", path "c.ts"] := by
    decide +kernel
  have shown : ∀ p ∈ [path "a.ts", path "b.ts", path "c.ts"],
      (SourceFile.read fs p).map SourceFile.showsArguments = .ok true := by
    decide +kernel
  have search := (specifiers_without_comments (SourceFile.ofChars (path "a.ts") []) fs [txt ".ts"]
    (path "a.ts")).2.2.2
  rw [collected] at search
  exact ⟨collected, search shown⟩

/-- A comment before the string of a loading call hides the module, and with it the file. -/
theorem collect_hidden_argument :
    let path (name : String) : Path := ⟨false, [txt name]⟩
    let fs := ((FileSystem.empty ⟨false, []⟩).write (path "a.ts")
        "require(/* c */ './x')".toUTF8).write (path "x.ts") "".toUTF8
    collect fs [txt ".ts"] (path "a.ts") = [path "a.ts"] ∧
    uncommentedSuccessors fs [txt ".ts"] (path "a.ts") = [path "x.ts"] := by
  decide +kernel

end ModuleGraph

end ParamSchema
