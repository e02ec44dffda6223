import ParamSchema.Proofs.Defaults.Evaluation
import ParamSchema.Proofs.Layout.Covering
import ParamSchema.Proofs.Outcome
import ParamSchema.Proofs.Shape.Target

/-!
Variables and their initializers. An identifier is evaluated to what the type of its variable says,
where that says a value, and otherwise like the initializer. The two agree just when the type says
nothing else than the initializer (`Defaults.Keeps`): an annotation that is no plain name is shown
as it stands, and a constant string is shown with its quotes and backslashes escaped.
-/

namespace ParamSchema

namespace Site

/-- The type that is written for a declared variable. -/
def writtenType? (declarator : Site) : Option Text :=
  (declarator.child? .type).map fun written =>
    Text.trim (written.text.dropWhile (· == chr ':'))

theorem map_node_child? (s : Site) (role : Role) :
    (s.child? role).map node = s.node.child? role := by
  rw [child?, Option.map_map]
  exact s.place.map_node_child? role

theorem variableType?_of_annotated {d : Site} {a : Text} (h : d.writtenType? = some a) :
    d.variableType? = .ok (some a) := by
  obtain ⟨written, found, rfl⟩ := Option.map_eq_some_iff.mp h
  rw [variableType?, found]
  rfl

theorem variableType?_of_initializer {d init : Site} (bare : d.writtenType? = none)
    (value : d.child? .value = some init) :
    d.variableType? = (Option.map fun literal =>
      if d.isConstant then literal else SourceFile.widened literal) <$>
        init.file.literalText? init.node := by
  have untyped : d.child? .type = none := Option.map_eq_none_iff.mp bare
  have node : d.node.child? .value = some init.node := by
    rw [← map_node_child?, value]
    rfl
  have file := (isPart_of_child? value).file
  simp only [variableType?, untyped, node, file]
  cases d.file.literalText? init.node <;> rfl

end Site

namespace Defaults

/-- Whether the text of a type says a value: it is there, and it is no plain name. -/
def isTelling (t : Text) : Bool := !t.isEmpty && t != txt "any" && !isName t

theorem tellingType_some (t : Text) : tellingType (some t) = if isTelling t then some t else none :=
  Option.filter_some

/-- A text that does not begin like a name says a value. -/
theorem isTelling_of_head {c : CodePoint} {t : Text} (h : isNameStart c = false) :
    isTelling (c :: t) = true := by
  have name : isName (c :: t) = false := by
    rw [isName]
    by_cases feed : (c :: t).getLast? = some (chr '\n')
    · cases t with
      | nil => simp [feed]
      | cons d t => simp [feed, h]
    · simp [feed, h]
  have other : (c :: t != txt "any") = true := by
    rw [bne_iff_ne]
    intro eq
    have start : c = chr 'a' := (List.cons.inj eq).1
    rw [start] at h
    exact absurd h (by decide)
  simp [isTelling, name, other]

/-- The types of variables that may be assigned again are names. -/
theorem isTelling_widened (t : Text) : isTelling (SourceFile.widened t) = false := by
  rw [SourceFile.widened]
  split_ifs <;> decide

/-! ### Texts of variables -/

section

variable {p : Program} {s d init : Site} {n : Nat}
  (kind : s.node.kind = .identifier ∨ s.node.kind = .shorthandProperty)
  (declared : p.declarator? s = some d) (value : d.child? .value = some init)

include kind declared value

theorem evaluate_variable :
    evaluate (.program p) (n + 1) s = .ok (((d.variableType? >>= fun type =>
      (tellingType type).elim (evaluate (.program p) n init) pure).toOption).getD s.text) := by
  have initializer : (Resolver.program p).initializer? s = some init := by
    show (p.declarator? s).bind (·.child? .value) = some init
    rw [declared]
    exact value
  have type : (Resolver.program p).identifierType? s = d.variableType? := by
    show p.identifierType? s = _
    rw [Program.identifierType?, declared]
  rcases kind with kind | kind
  all_goals
    rw [evaluate, kind]
    simp only [initializer, type]
    cases d.variableType? with
    | error o => rfl
    | ok type =>
      simp only [bind, Except.bind]
      cases tellingType type with
      | none => cases evaluate (.program p) n init <;> rfl
      | some t => rfl

/-- A type that says a value is shown as it stands, and any other leads to the initializer. -/
theorem evaluate_of_type {u : Text} (type : d.variableType? = .ok (some u)) :
    evaluate (.program p) (n + 1) s = .ok (if isTelling u then u
      else (evaluate (.program p) n init).toOption.getD s.text) := by
  rw [evaluate_variable kind declared value, type]
  show Except.ok ((((tellingType (some u)).elim (evaluate (.program p) n init) pure).toOption).getD
    s.text) = _
  rw [tellingType_some]
  split_ifs <;> rfl

theorem evaluate_of_untyped (type : d.variableType? = .ok none) :
    evaluate (.program p) (n + 1) s =
      .ok ((evaluate (.program p) n init).toOption.getD s.text) := by
  rw [evaluate_variable kind declared value, type]
  rfl

theorem evaluate_of_overflow {o : Overflow} (type : d.variableType? = .error o) :
    evaluate (.program p) (n + 1) s = .ok s.text := by
  rw [evaluate_variable kind declared value, type]
  rfl

end

/-! ### Literals -/

theorem replace_cons (c d : CodePoint) (w t : Text) :
    Text.replace c w (d :: t) = (if d == c then w else [d]) ++ Text.replace c w t :=
  List.flatMap_cons

theorem replace_of_not_mem {c : CodePoint} (w : Text) {t : Text} (h : c ∉ t) :
    Text.replace c w t = t := by
  induction t with
  | nil => rfl
  | cons d t ih =>
    rw [List.mem_cons, not_or] at h
    rw [replace_cons, ih h.2, beq_eq_false_iff_ne.mpr (Ne.symm h.1)]
    rfl

theorem length_replace (c a b : CodePoint) (t : Text) :
    (Text.replace c [a, b] t).length = t.length + t.count c := by
  induction t with
  | nil => rfl
  | cons d t ih =>
    rw [replace_cons, List.length_append, ih, List.length_cons, List.count_cons]
    by_cases same : (d == c) = true
    · rw [if_pos same, if_pos same, List.length_cons, List.length_singleton]
      omega
    · rw [if_neg same, if_neg same, List.length_singleton]
      omega

/-- Escapes leave a text as it is just when there is nothing to escape. -/
theorem quotedText_eq_iff {v : Text} :
    SourceFile.quotedText v = [chr '\x22'] ++ v ++ [chr '\x22'] ↔
      chr '\x22' ∉ v ∧ chr '\\' ∉ v := by
  rw [SourceFile.quotedText]
  constructor
  · intro eq
    have same := List.append_cancel_left (List.append_cancel_right eq)
    have length := congrArg List.length same
    rw [show txt "\\\"" = [chr '\\', chr '\x22'] from rfl,
      show txt "\\\\" = [chr '\\', chr '\\'] from rfl, length_replace, length_replace] at length
    have slash : chr '\\' ∉ v := List.count_eq_zero.mp (by omega)
    rw [replace_of_not_mem _ slash] at length
    exact ⟨List.count_eq_zero.mp (by omega), slash⟩
  · rintro ⟨quote, slash⟩
    rw [replace_of_not_mem _ slash, replace_of_not_mem _ quote]

section

variable {r : Resolver} {s : Site} {n : Nat} {t : Text} (shown : evaluate r (n + 1) s = .ok t)

include shown

/-- What the type of a literal says, beside the text that it is evaluated to. -/
theorem literalText?_some {l : Text} (h : s.file.literalText? s.node = .ok (some l)) :
    (s.node.kind = .string ∧ ∃ v, s.file.stringValue s.node = .ok v ∧
      l = SourceFile.quotedText v ∧ t = [chr '\x22'] ++ v ++ [chr '\x22']) ∨
    (s.node.kind = .unaryExpression ∧
      ∃ x, s.file.negatedNumber? s.node = .ok (some x) ∧ l = x.text) ∨
    (s.node.kind ≠ .string ∧ s.node.kind ≠ .unaryExpression ∧ (isTelling l = true → l = t)) := by
  rw [SourceFile.literalText?] at h
  split at h
  case h_1 kind =>
    obtain ⟨v, read, eq⟩ := Outcome.bind_eq_ok.mp h
    rw [evaluate_string r n kind, read] at shown
    exact .inl ⟨kind, v, read, (Option.some.inj (Except.ok.inj eq)).symm,
      (Except.ok.inj shown).symm⟩
  case h_2 kind =>
    obtain ⟨x?, read, eq⟩ := Outcome.bind_eq_ok.mp h
    rw [evaluate_number r n kind, read] at shown
    refine .inr (.inr ⟨by rw [kind]; nofun, by rw [kind]; nofun, fun _ => ?_⟩)
    have literal : x?.map Double.text = some l := Except.ok.inj eq
    have text : (x?.map Double.text).getD s.text = t := Except.ok.inj shown
    rw [← text, literal]
    rfl
  case h_3 kind =>
    refine .inr (.inr ⟨by rw [kind]; nofun, by rw [kind]; nofun, fun telling => ?_⟩)
    rw [← Option.some.inj (Except.ok.inj h)] at telling
    exact absurd telling (by decide)
  case h_4 kind =>
    refine .inr (.inr ⟨by rw [kind]; nofun, by rw [kind]; nofun, fun telling => ?_⟩)
    rw [← Option.some.inj (Except.ok.inj h)] at telling
    exact absurd telling (by decide)
  case h_5 kind =>
    obtain ⟨x?, read, eq⟩ := Outcome.bind_eq_ok.mp h
    obtain ⟨x, rfl, text⟩ := Option.map_eq_some_iff.mp (Except.ok.inj eq)
    exact .inr (.inl ⟨kind, x, read, text.symm⟩)
  case h_6 => cases h

/-- What has a text has a type that can be told, except for a negated number. -/
theorem literalText?_error {o : Overflow} (h : s.file.literalText? s.node = .error o) :
    s.node.kind = .unaryExpression ∧ s.file.negatedNumber? s.node = .error o := by
  rw [SourceFile.literalText?] at h
  split at h
  case h_1 kind =>
    obtain failed | ⟨_, _, eq⟩ := Outcome.bind_eq_error.mp h
    · rw [evaluate_string r n kind, failed] at shown
      cases shown
    · cases eq
  case h_2 kind =>
    obtain failed | ⟨_, _, eq⟩ := Outcome.bind_eq_error.mp h
    · rw [evaluate_number r n kind, failed] at shown
      cases shown
    · cases eq
  case h_3 => cases h
  case h_4 => cases h
  case h_5 kind =>
    obtain failed | ⟨_, _, eq⟩ := Outcome.bind_eq_error.mp h
    · exact ⟨kind, failed⟩
    · cases eq
  case h_6 => cases h

end

theorem literalText?_none {s : Site} (h : s.file.literalText? s.node = .ok none) :
    s.node.kind ≠ .string ∧
      (s.node.kind = .unaryExpression → s.file.negatedNumber? s.node = .ok none) := by
  rw [SourceFile.literalText?] at h
  split at h
  case h_1 kind =>
    obtain ⟨v, -, eq⟩ := Outcome.bind_eq_ok.mp h
    cases eq
  case h_2 kind => exact ⟨by rw [kind]; nofun, by rw [kind]; nofun⟩
  case h_3 => cases h
  case h_4 => cases h
  case h_5 kind =>
    obtain ⟨x?, read, eq⟩ := Outcome.bind_eq_ok.mp h
    have none : x? = none := Option.map_eq_none_iff.mp (Except.ok.inj eq)
    exact ⟨by rw [kind]; nofun, fun _ => none ▸ read⟩
  case h_6 string _ _ _ unary => exact ⟨string, fun kind => absurd kind unary⟩

/-! ### Agreement with the initializer -/

/-- A variable that is shown as the text of its initializer. -/
structure Keeps (s d init : Site) (t : Text) : Prop where
  /-- An annotation that says a value says this one. -/
  annotated : ∀ a, d.writtenType? = some a → isTelling a = true → a = t
  /-- In a constant string nothing is escaped. -/
  string : d.writtenType? = none → d.isConstant = true → init.node.kind = .string →
    ∀ v, init.file.stringValue init.node = .ok v → chr '\x22' ∉ v ∧ chr '\\' ∉ v
  /-- A constant negated number is shown as the number. -/
  negated : d.writtenType? = none → d.isConstant = true → init.node.kind = .unaryExpression →
    ∀ x, init.file.negatedNumber? init.node = .ok (some x) → isTelling x.text = true → x.text = t
  /-- A negated number that overflows leaves the name as it is. -/
  overflow : d.writtenType? = none → init.node.kind = .unaryExpression →
    ∀ o, init.file.negatedNumber? init.node = .error o → s.text = t

theorem keeps_iff_of_annotated {s d init : Site} {a t : Text} (h : d.writtenType? = some a) :
    Keeps s d init t ↔ (isTelling a = true → a = t) := by
  constructor
  · intro keeps
    exact keeps.annotated a h
  · intro tells
    refine ⟨?_, ?_, ?_, ?_⟩
    · intro b eq
      rw [h] at eq
      exact Option.some.inj eq ▸ tells
    all_goals
      intro none
      rw [h] at none
      cases none

section

variable {r : Resolver} {s d init : Site} {n : Nat} {t : Text} (bare : d.writtenType? = none)
  (shown : evaluate r (n + 1) init = .ok t)

include bare shown

/-- Of a literal, a constant is shown as its type, and any other variable as the initializer. -/
theorem keeps_iff_of_literal {l : Text}
    (literal : init.file.literalText? init.node = .ok (some l)) :
    Keeps s d init t ↔ (d.isConstant = true → isTelling l = true → l = t) := by
  have annotated (a : Text) (h : d.writtenType? = some a) : isTelling a = true → a = t := by
    rw [bare] at h
    cases h
  obtain ⟨string, v, read, rfl, rfl⟩ | ⟨unary, x, read, rfl⟩ | ⟨string, unary, same⟩ :=
    literalText?_some shown literal
  · have telling : isTelling (SourceFile.quotedText v) = true := isTelling_of_head (by decide)
    constructor
    · intro keeps constant _
      exact quotedText_eq_iff.mpr (keeps.string bare constant string v read)
    · intro same
      refine ⟨annotated, ?_, ?_, ?_⟩
      · intro _ constant _ w eq
        rw [read] at eq
        exact quotedText_eq_iff.mp (Except.ok.inj eq ▸ same constant telling)
      all_goals simp [string]
  · constructor
    · intro keeps constant
      exact keeps.negated bare constant unary x read
    · intro same
      refine ⟨annotated, by simp [unary], ?_, by simp [read]⟩
      intro _ constant _ y eq
      rw [read] at eq
      exact Option.some.inj (Except.ok.inj eq) ▸ same constant
  · have keeps : Keeps s d init t :=
      ⟨annotated, by simp [string], by simp [unary], by simp [unary]⟩
    exact iff_of_true keeps fun _ => same

theorem keeps_iff_of_overflow {o : Overflow}
    (literal : init.file.literalText? init.node = .error o) : Keeps s d init t ↔ s.text = t := by
  obtain ⟨unary, failed⟩ := literalText?_error shown literal
  constructor
  · intro keeps
    exact keeps.overflow bare unary o failed
  · intro same
    exact ⟨by simp [bare], by simp [unary], by simp [failed], fun _ _ _ _ => same⟩

end

theorem keeps_of_no_literal {s d init : Site} {t : Text} (bare : d.writtenType? = none)
    (literal : init.file.literalText? init.node = .ok none) : Keeps s d init t := by
  obtain ⟨string, negated⟩ := literalText?_none literal
  refine ⟨by simp [bare], by simp [string], ?_, ?_⟩
  · intro _ _ unary x read
    simp [negated unary] at read
  · intro _ unary o failed
    simp [negated unary] at failed

section

variable {p : Program} {s d init : Site} {n : Nat} {t : Text}
  (kind : s.node.kind = .identifier ∨ s.node.kind = .shorthandProperty)
  (declared : p.declarator? s = some d) (value : d.child? .value = some init)
  (shown : evaluate (.program p) (n + 1) init = .ok t)

include kind declared value shown

theorem evaluate_eq_iff_of_type {u : Text} (type : d.variableType? = .ok (some u)) :
    evaluate (.program p) (n + 2) s = .ok t ↔ (isTelling u = true → u = t) := by
  rw [evaluate_of_type kind declared value type, shown, Except.ok.injEq]
  exact ite_eq_right_iff

theorem evaluate_eq_iff_keeps : evaluate (.program p) (n + 2) s = .ok t ↔ Keeps s d init t := by
  cases written : d.writtenType? with
  | some a =>
    rw [keeps_iff_of_annotated written]
    exact evaluate_eq_iff_of_type kind declared value shown
      (Site.variableType?_of_annotated written)
  | none =>
    have type := Site.variableType?_of_initializer written value
    rcases literal : init.file.literalText? init.node with o | _ | l
    · rw [literal] at type
      rw [keeps_iff_of_overflow written shown literal,
        evaluate_of_overflow kind declared value type, Except.ok.injEq]
    · rw [literal] at type
      rw [evaluate_of_untyped kind declared value type, shown]
      exact iff_of_true rfl (keeps_of_no_literal written literal)
    · rw [literal] at type
      rw [keeps_iff_of_literal written shown literal,
        evaluate_eq_iff_of_type kind declared value shown type]
      by_cases constant : d.isConstant = true
      · simp only [constant, if_true, true_imp_iff]
      · simp only [constant, if_false, isTelling_widened, Bool.false_eq_true, false_imp_iff]

end

/-- An identifier or a shorthand property is evaluated like the initializer of its variable just
when the initializer has a text and the variable keeps it. -/
theorem variable_like_initializer_iff {p : Program} {s d init : Site} {n : Nat}
    (kind : s.node.kind = .identifier ∨ s.node.kind = .shorthandProperty)
    (declared : p.declarator? s = some d) (value : d.child? .value = some init) :
    evaluate (.program p) (n + 2) s = evaluate (.program p) (n + 1) init ↔
      ∃ t, evaluate (.program p) (n + 1) init = .ok t ∧ Keeps s d init t := by
  cases shown : evaluate (.program p) (n + 1) init with
  | error o =>
    rw [evaluate_variable kind declared value]
    exact iff_of_false nofun (by rintro ⟨t, eq, -⟩; cases eq)
  | ok t =>
    rw [evaluate_eq_iff_keeps kind declared value shown]
    constructor
    · intro keeps
      exact ⟨t, rfl, keeps⟩
    · rintro ⟨u, eq, keeps⟩
      exact Except.ok.inj eq ▸ keeps

/-! ### Variables of a file -/

/-- The program of a file, with the first shorthand property of the file, the declaration that it
leads to and the initializer. -/
def withVariable? (fs : FileSystem) (path : Path) : Option (Program × Site × Site × Site) := do
  let p ← (Program.load fs [] [path]).toOption
  let m ← p.module? path
  let s ← (m.file.sites (·.node.kind == .shorthandProperty)).head?
  let d ← p.declarator? s
  let init ← d.child? .value
  return (p, s, d, init)

theorem withVariable?_eq_some {fs : FileSystem} {path : Path} {p : Program} {s d init : Site}
    (h : withVariable? fs path = some (p, s, d, init)) :
    s.node.kind = .shorthandProperty ∧ p.declarator? s = some d ∧ d.child? .value = some init := by
  obtain ⟨_, -, h⟩ := Option.bind_eq_some_iff.mp h
  obtain ⟨_, -, h⟩ := Option.bind_eq_some_iff.mp h
  obtain ⟨_, found, h⟩ := Option.bind_eq_some_iff.mp h
  obtain ⟨_, declared, h⟩ := Option.bind_eq_some_iff.mp h
  obtain ⟨_, value, h⟩ := Option.bind_eq_some_iff.mp h
  cases h
  have kind := (List.mem_filter.mp (List.mem_of_head? found)).2
  exact ⟨eq_of_beq kind, declared, value⟩

/-- A variable that may be assigned again keeps the quotes of its initializer as they are. -/
theorem variable_like_initializer_quoted :
    let path : Path := ⟨false, [txt "a.ts"]⟩
    let fs := FileSystem.ofSource path "let c = 'a\"b'; const o = \x7b c \x7d"
    ∃ p s d init, withVariable? fs path = some (p, s, d, init) ∧
      evaluate (.program p) 2 s = evaluate (.program p) 1 init := by
  intro path fs
  have run : ((withVariable? fs path).map fun found =>
      (evaluate (.program found.1) 1 found.2.2.2, found.2.2.1.writtenType?, found.2.2.1.isConstant,
        found.2.2.2.node.kind)) =
      some (.ok (txt "\"a\"b\""), none, false, .string) := by
    decide +kernel
  obtain ⟨⟨p, s, d, init⟩, found, eq⟩ := Option.map_eq_some_iff.mp run
  obtain ⟨kind, declared, value⟩ := withVariable?_eq_some found
  simp only [Prod.mk.injEq] at eq
  obtain ⟨shown, bare, assigned, string⟩ := eq
  refine ⟨p, s, d, init, found, (variable_like_initializer_iff (.inr kind) declared value).mpr ?_⟩
  exact ⟨_, shown, by simp [bare], by simp [assigned], by simp [string], by simp [string]⟩

/-- A constant does not: its text is that of a type, where quotes are escaped. -/
theorem constant_unlike_initializer :
    let path : Path := ⟨false, [txt "a.ts"]⟩
    let fs := FileSystem.ofSource path "const c = 'a\"b'; const o = \x7b c \x7d"
    ∃ p s d init, withVariable? fs path = some (p, s, d, init) ∧
      evaluate (.program p) 2 s = .ok (txt "\"a\\\"b\"") ∧
      evaluate (.program p) 1 init = .ok (txt "\"a\"b\"") := by
  intro path fs
  have run : ((withVariable? fs path).map fun found =>
      (evaluate (.program found.1) 2 found.2.1, evaluate (.program found.1) 1 found.2.2.2)) =
      some (.ok (txt "\"a\\\"b\""), .ok (txt "\"a\"b\"")) := by
    decide +kernel
  obtain ⟨⟨p, s, d, init⟩, found, eq⟩ := Option.map_eq_some_iff.mp run
  exact ⟨p, s, d, init, found, Prod.mk.inj eq⟩

end Defaults

end ParamSchema
