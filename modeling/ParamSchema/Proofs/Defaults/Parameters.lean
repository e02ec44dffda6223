import ParamSchema.Proofs.Defaults.Constants

/-!
Parameters and the variables outside of their functions. A name is looked up in the blocks around it
and then among the imports of its file; functions on the way are passed without a look at their
parameters. So a parameter is taken for the variable that its name has outside of the function
(`Defaults.parameter_like_outside`): it has no initializer, as it should, just when there is no such
variable with one.
-/

namespace ParamSchema

namespace Place

/-- Whether a node is a function with parameters and a body of its own. -/
def isFunction (p : Place) : Bool :=
  [.functionDeclaration, .functionExpression, .arrowFunction, .methodDefinition].contains p.kind

/-- The plain parameters of a function: the name before an arrow and the names between parentheses
that are no patterns. -/
def plainParameters (f : Place) : List Node :=
  let listed := ((f.node.child? .parameters).map Node.children).getD []
  ((f.node.child? .parameter).toList ++ listed.filterMap (·.child? .pattern)).filter
    (·.kind == .identifier)

theorem isScope_of_isFunction {f : Place} (h : f.isFunction = true) : f.isScope = false := by
  simp only [isFunction, List.contains_iff_mem, List.mem_cons, List.not_mem_nil, or_false] at h
  rw [isScope]
  rcases h with kind | kind | kind | kind <;> rw [kind] <;> rfl

/-- Behind a place around another one stand the places around it. -/
theorem around_of_split {p f : Place} {inner outer : List Place}
    (h : p.around = inner ++ f :: outer) : outer = f.around := by
  induction p generalizing inner with
  | root => simp [around] at h
  | part parent _ _ ih =>
    cases inner with
    | nil =>
      obtain ⟨rfl, rfl⟩ := List.cons.inj h
      rfl
    | cons q inner => exact ih (List.cons.inj h).2

end Place

/-! ### Declarations by lexical scope -/

namespace Program

variable {p : Program} {file : SourceFile} {name : Text}

/-- A block that declares no variable of a name. -/
def Passes (file : SourceFile) (name : Text) (q : Place) : Prop :=
  q.isScope = true → file.declarationsIn .value name q = []

/-- The declaration that the name of a variable has at a place: the first one of the innermost block
around the place that has any, and the first one that the file imports where no block has one. -/
inductive DeclaresAt (p : Program) (file : SourceFile) (place : Place) (name : Text) (d : Site) :
    Prop where
  | block {inner outer : List Place} {scope : Place} :
      place.around = inner ++ scope :: outer → (∀ q ∈ inner, Passes file name q) →
      scope.isScope = true → (file.declarationsIn .value name scope).head? = some d →
      DeclaresAt p file place name d
  | imported : (∀ q ∈ place.around, Passes file name q) →
      (p.imported .value file.path name).head? = some d → DeclaresAt p file place name d

/-- The declarations of a name in the first of some places that is a block with any. -/
def lookupIn (p : Program) (file : SourceFile) (name : Text) (places : List Place) : List Site :=
  (((places.filter Place.isScope).map (file.declarationsIn .value name)).find?
    (!·.isEmpty)).getD (p.imported .value file.path name)

theorem lookup_eq_lookupIn (p : Program) (s : Site) (name : Text) :
    p.lookup .value s name = p.lookupIn s.file name s.place.around := by
  rw [lookup, lookupIn]
  split
  · next found eq => rw [eq, Option.getD_some]
  · next eq => rw [eq, Option.getD_none]

theorem lookupIn_of_passes {q : Place} (h : Passes file name q) (places : List Place) :
    p.lookupIn file name (q :: places) = p.lookupIn file name places := by
  rw [lookupIn, lookupIn, List.filter_cons]
  split
  · next scope => rw [List.map_cons, h scope, List.find?_cons_of_neg (by simp)]
  · rfl

theorem lookupIn_of_declares {q : Place} (scope : q.isScope = true)
    (h : file.declarationsIn .value name q ≠ []) (places : List Place) :
    p.lookupIn file name (q :: places) = file.declarationsIn .value name q := by
  rw [lookupIn, List.filter_cons_of_pos scope, List.map_cons,
    List.find?_cons_of_pos (by simpa using h), Option.getD_some]

theorem lookupIn_append {inner : List Place} (h : ∀ q ∈ inner, Passes file name q)
    (outer : List Place) :
    p.lookupIn file name (inner ++ outer) = p.lookupIn file name outer := by
  induction inner with
  | nil => rfl
  | cons q inner ih =>
    rw [List.cons_append, lookupIn_of_passes (h q List.mem_cons_self),
      ih fun q' mem => h q' (List.mem_cons_of_mem q mem)]

theorem lookupIn_of_all_pass {places : List Place} (h : ∀ q ∈ places, Passes file name q) :
    p.lookupIn file name places = p.imported .value file.path name := by
  rw [← List.append_nil places, lookupIn_append h]
  rfl

/-- Some places are all passed, or there is a first one that is not. -/
theorem passes_or_split (file : SourceFile) (name : Text) (places : List Place) :
    (∀ q ∈ places, Passes file name q) ∨
    ∃ inner scope outer, places = inner ++ scope :: outer ∧ (∀ q ∈ inner, Passes file name q) ∧
      scope.isScope = true ∧ file.declarationsIn .value name scope ≠ [] := by
  induction places with
  | nil => exact .inl nofun
  | cons q places ih =>
    by_cases passes : Passes file name q
    · rcases ih with all | ⟨inner, scope, outer, rfl, before, found⟩
      · exact .inl (List.forall_mem_cons.mpr ⟨passes, all⟩)
      · exact .inr ⟨q :: inner, scope, outer, rfl, List.forall_mem_cons.mpr ⟨passes, before⟩, found⟩
    · rw [Passes, Classical.not_imp] at passes
      exact .inr ⟨[], q, places, rfl, nofun, passes⟩

theorem head?_lookupIn_iff {place : Place} {d : Site} :
    (p.lookupIn file name place.around).head? = some d ↔ p.DeclaresAt file place name d := by
  constructor
  · intro found
    rcases passes_or_split file name place.around with
      all | ⟨inner, scope, outer, split, before, isScope, some⟩
    · rw [lookupIn_of_all_pass all] at found
      exact .imported all found
    · rw [split, lookupIn_append before, lookupIn_of_declares isScope some] at found
      exact .block split before isScope found
  · intro h
    cases h with
    | @block _ _ scope split before isScope found =>
      have some : file.declarationsIn .value name scope ≠ [] := by
        intro none
        rw [none] at found
        cases found
      rw [split, lookupIn_append before, lookupIn_of_declares isScope some]
      exact found
    | imported all found =>
      rw [lookupIn_of_all_pass all]
      exact found

end Program

/-! ### Uses of parameters -/

/-- A use of a parameter: an identifier in the body of a function that has a plain parameter of this
name, where no block between the two declares a variable of the name. -/
structure Site.UsesParameter (s : Site) (f : Place) : Prop where
  identifier : s.node.kind = .identifier ∨ s.node.kind = .shorthandProperty
  function : f.isFunction = true
  parameter : s.text ∈ f.plainParameters.map s.file.textOf
  /-- The part of the function on the way to the use is its body. -/
  body : ∃ inner outer, s.place.around = inner ++ f :: outer ∧
    (∃ b, (s.place :: inner).getLast? = some b ∧ b.node.role = some .body) ∧
    ∀ q ∈ inner, Program.Passes s.file s.text q

namespace Defaults

variable {p : Program} {s : Site} {f : Place}

theorem declarator?_of_parameter (use : s.UsesParameter f) (d : Site) :
    p.declarator? s = some d ↔ p.DeclaresAt s.file f s.text d := by
  obtain ⟨inner, outer, split, -, passes⟩ := use.body
  have function : Program.Passes s.file s.text f := by
    intro scope
    rw [Place.isScope_of_isFunction use.function] at scope
    cases scope
  rw [← Program.head?_lookupIn_iff, ← Place.around_of_split split, Program.declarator?,
    Program.lookup_eq_lookupIn, split, Program.lookupIn_append passes,
    Program.lookupIn_of_passes function]

/-- Without an initializer a name stays as it is written, unless its variable has a type that says a
value. -/
theorem evaluate_uninitialized (n : Nat)
    (kind : s.node.kind = .identifier ∨ s.node.kind = .shorthandProperty)
    (h : ∀ d, p.declarator? s = some d →
      d.child? .value = none ∧ ∀ a, d.writtenType? = some a → isTelling a = false) :
    evaluate (.program p) n s = .ok s.text := by
  have initializer : (Resolver.program p).initializer? s = none := by
    show (p.declarator? s).bind (·.child? .value) = none
    rw [Option.bind_eq_none_iff]
    intro d declared
    exact (h d declared).1
  have silent : ∃ type, (Resolver.program p).identifierType? s = .ok (some type) ∧
      isTelling type = false := by
    show ∃ type, p.identifierType? s = .ok (some type) ∧ isTelling type = false
    rw [Program.identifierType?]
    cases declared : p.declarator? s with
    | none => exact ⟨txt "any", rfl, by decide⟩
    | some d =>
      obtain ⟨value, annotation⟩ := h d declared
      cases written : d.writtenType? with
      | some a => exact ⟨a, Site.variableType?_of_annotated written, annotation a written⟩
      | none =>
        have untyped : d.child? .type = none := Option.map_eq_none_iff.mp written
        have node : d.node.child? .value = none := by
          rw [← Site.map_node_child?, value]
          rfl
        refine ⟨txt "any", ?_, by decide⟩
        simp only [Site.variableType?, untyped, node]
        rfl
  obtain ⟨type, known, silent⟩ := silent
  cases n with
  | zero => rfl
  | succ n =>
    rcases kind with kind | kind
    all_goals
      rw [evaluate, kind]
      simp only [initializer, known, bind, Except.bind, tellingType_some, silent]
      rfl

/-- A parameter is looked up like a variable outside of its function. It has no initializer just
when no variable is found there or the first one has none; and where that one has no type that says
a value either, the parameter stays as it is written. -/
theorem parameter_like_outside (use : s.UsesParameter f) :
    (∀ init, p.initializer? s = some init ↔
      ∃ d, p.DeclaresAt s.file f s.text d ∧ d.child? .value = some init) ∧
    (p.initializer? s = none ↔ ∀ d, p.DeclaresAt s.file f s.text d → d.child? .value = none) ∧
    ((∀ d, p.DeclaresAt s.file f s.text d →
        d.child? .value = none ∧ ∀ a, d.writtenType? = some a → isTelling a = false) →
      ∀ n, evaluate (.program p) n s = .ok s.text) := by
  have declared := declarator?_of_parameter (p := p) use
  refine ⟨?_, ?_, ?_⟩
  · intro init
    rw [Program.initializer?, Option.bind_eq_some_iff]
    simp only [declared]
  · rw [Program.initializer?, Option.bind_eq_none_iff]
    simp only [declared]
  · intro silent n
    exact evaluate_uninitialized n use.identifier fun d found => silent d ((declared d).mp found)

/-! ### Parameters of a file -/

/-- Whether a function has a plain parameter of the name at a site. -/
def binds (s : Site) (f : Place) : Bool :=
  f.isFunction && (f.plainParameters.map s.file.textOf).contains s.text

/-- The places between a site and the innermost function with a parameter of its name. -/
def insideBinder (s : Site) : List Place := s.place.around.takeWhile fun q => !binds s q

/-- The program of a file, with the first shorthand property of the file and the innermost function
around it that has a parameter of its name, where the property is a use of that parameter. -/
def withParameter? (fs : FileSystem) (path : Path) : Option (Program × Site × Place) := do
  let p ← (Program.load fs [] [path]).toOption
  let m ← p.module? path
  let s ← (m.file.sites (·.node.kind == .shorthandProperty)).head?
  let f ← (s.place.around.dropWhile fun q => !binds s q).head?
  let part ← (s.place :: insideBinder s).getLast?
  if part.node.role == some .body && (insideBinder s).all fun q =>
    !q.isScope || (s.file.declarationsIn .value s.text q).isEmpty
  then some (p, s, f) else none

theorem withParameter?_eq_some {fs : FileSystem} {path : Path}
    (h : withParameter? fs path = some (p, s, f)) : s.UsesParameter f := by
  obtain ⟨_, -, h⟩ := Option.bind_eq_some_iff.mp h
  obtain ⟨_, -, h⟩ := Option.bind_eq_some_iff.mp h
  obtain ⟨s', found, h⟩ := Option.bind_eq_some_iff.mp h
  obtain ⟨f', binder, h⟩ := Option.bind_eq_some_iff.mp h
  obtain ⟨part, last, h⟩ := Option.bind_eq_some_iff.mp h
  split at h
  case isFalse => cases h
  case isTrue facts =>
    cases h
    obtain ⟨outer, behind⟩ := List.head?_eq_some_iff.mp binder
    have split : s.place.around = insideBinder s ++ f :: outer := by
      rw [← behind, insideBinder, List.takeWhile_append_dropWhile]
    have bound : binds s f = true := by
      have first := List.head?_dropWhile_not (fun q => !binds s q) s.place.around
      rw [binder] at first
      simpa using first
    rw [binds, Bool.and_eq_true, List.contains_iff_mem] at bound
    rw [Bool.and_eq_true, List.all_eq_true] at facts
    refine ⟨.inr (eq_of_beq (List.mem_filter.mp (List.mem_of_head? found)).2), bound.1, bound.2,
      insideBinder s, outer, split, ⟨part, last, eq_of_beq facts.1⟩, ?_⟩
    intro q inside scope
    simpa [scope] using facts.2 q inside

/-- A parameter of a method, used in a function inside a block, beside a constant of another name.
-/
theorem parameter_like_outside_nested :
    let path : Path := ⟨false, [txt "a.ts"]⟩
    let fs := FileSystem.ofSource path "const y = 1;
class C \x7b m(x: number, y) \x7b if (y) \x7b return [y].map(z => (\x7b x \x7d)) \x7d \x7d \x7d"
    ∃ p s f, withParameter? fs path = some (p, s, f) ∧ s.text = txt "x" ∧ s.UsesParameter f ∧
      p.initializer? s = none ∧ evaluate (.program p) 6 s = .ok (txt "x") := by
  intro path fs
  have run : ((withParameter? fs path).map fun found =>
      (found.2.1.text, (found.1.lookupIn found.2.1.file found.2.1.text found.2.2.around).isEmpty)) =
      some (txt "x", true) := by
    decide +kernel
  obtain ⟨⟨p, s, f⟩, found, eq⟩ := Option.map_eq_some_iff.mp run
  simp only [Prod.mk.injEq] at eq
  obtain ⟨text, outside⟩ := eq
  have use := withParameter?_eq_some found
  have absent (d : Site) : ¬ p.DeclaresAt s.file f s.text d := by
    rw [← Program.head?_lookupIn_iff, List.isEmpty_iff.mp outside]
    nofun
  obtain ⟨-, uninitialized, verbatim⟩ := parameter_like_outside (p := p) use
  exact ⟨p, s, f, found, text, use, uninitialized.mpr fun d declares => absurd declares (absent d),
    text ▸ verbatim (fun d declares => absurd declares (absent d)) 6⟩

/-- A parameter with the name of a constant outside of its function is shown as that constant. -/
theorem parameter_hidden_by_constant :
    let path : Path := ⟨false, [txt "a.ts"]⟩
    let fs := FileSystem.ofSource path "const x = 5; function f(x) \x7b return \x7b x \x7d \x7d"
    ∃ p s f init, withParameter? fs path = some (p, s, f) ∧ s.UsesParameter f ∧
      p.initializer? s = some init ∧ init.text = txt "5" ∧
      evaluate (.program p) 6 s = .ok (txt "5") := by
  intro path fs
  have run : ((withParameter? fs path).map fun found =>
      ((found.1.initializer? found.2.1).map Site.text, evaluate (.program found.1) 6 found.2.1)) =
      some (some (txt "5"), .ok (txt "5")) := by
    decide +kernel
  obtain ⟨⟨p, s, f⟩, found, eq⟩ := Option.map_eq_some_iff.mp run
  simp only [Prod.mk.injEq, Option.map_eq_some_iff] at eq
  obtain ⟨⟨init, initializer, text⟩, shown⟩ := eq
  exact ⟨p, s, f, init, found, withParameter?_eq_some found, initializer, text, shown⟩

end Defaults

end ParamSchema
