import ParamSchema.Parse.Statements
import ParamSchema.Proofs.Layout.Expressions

/-!
Statements and declarations are laid out when what is nested in them is.
-/

namespace ParamSchema.Parse.Reader

variable {r : Rules} (hr : ∀ rule, Lays [] (r rule))

/-! ### Modules -/

theorem lays_fromClause : Lays [] fromClause :=
  .seq (lays_keyword rfl) fun _ => .seq lays_string fun _ => .bare (by simp)

theorem lays_exportedName : Lays [] exportedName := .orElse lays_string (lays_name rfl)

theorem lays_specifier {kind : Kind} (tag : kind.tag? = none)
    (proper : (kind == .comment) = false) : Lays [] (specifier kind) :=
  have joins {parts : List Node} (some : parts ≠ []) : kind.Joins parts := ⟨some, proper, .inl tag⟩
  have second : Lays [] (optList do
      let as ← keyword "as"
      let other ← exportedName
      return [as, other.withRole .newName]) :=
    .optList (.seq (lays_keyword rfl) fun _ => .seq lays_exportedName fun _ => .bare (by simp))
  .orElse
    (.seq (.orElse (lays_keyword rfl) (lays_keyword rfl)) fun _ => .seq lays_exportedName fun _ =>
      .seq second fun _ => .look fun _ => .either (.branch ⟨by simp, joins (by simp)⟩) .miss)
    (.seq lays_exportedName fun _ => .seq second fun _ => .branch ⟨by simp, joins (by simp)⟩)

theorem lays_specifiers {kind item : Kind} (tag : item.tag? = none)
    (proper : (kind == .comment) = false) (properItem : (item == .comment) = false) :
    Lays [] (specifiers kind item) :=
  .seq (lays_symbol rfl) fun _ => .seq (lays_commaList (lays_specifier tag properItem)) fun _ =>
    .seq (lays_symbol rfl) fun _ => .branch ⟨by simp, by simp, proper, .inr (by simp)⟩

theorem lays_namespaceImport : Lays [] namespaceImport :=
  .seq (lays_symbol rfl) fun _ => .seq (lays_keyword rfl) fun _ => .seq (lays_name rfl) fun _ =>
    .branch (by simp)

theorem lays_importClause : Lays [] importClause :=
  have rest : Lays [] (namespaceImport <|> specifiers .namedImports .importSpecifier) :=
    .orElse lays_namespaceImport (lays_specifiers rfl rfl rfl)
  .orElse
    (.seq (lays_name rfl) fun _ => .seq (.optList (.seq (lays_symbol rfl) fun _ =>
      .seq rest fun _ => .bare (by simp))) fun _ => .branch (by simp))
    (.seq rest fun _ => .branch (by simp))

theorem lays_importRequire : Lays [] importRequire :=
  .seq (lays_name rfl) fun _ => .seq (lays_symbol rfl) fun _ => .seq (lays_keyword rfl) fun _ =>
    .seq (lays_symbol rfl) fun _ => .seq lays_string fun _ => .seq (lays_symbol rfl) fun _ =>
    .branch (by simp)

theorem lays_importAlias (word : Node) : Lays [word] (importAlias word) :=
  .seq (lays_name rfl) fun title => .seq (lays_symbol rfl) fun mark =>
    .seq (lays_nameBut rfl) fun target =>
    .carry [word, title, mark] (by simp) (lays_qualified target) fun _ =>
    .seq lays_semicolon fun _ => .branch (by simp)

theorem lays_starExport : Lays [] starExport :=
  .seq (lays_symbol rfl) fun star => .orElse
    (.seq (lays_keyword rfl) fun word => .seq lays_exportedName fun title =>
      .inner .namespaceExport [] [star, word, title] (by simp) <|
      .seq lays_fromClause fun _ => .bare (by simp))
    (.seq lays_fromClause fun _ => .bare (by simp))

theorem lays_namedExport : Lays [] namedExport :=
  .seq (lays_specifiers rfl rfl rfl) fun _ => .seq (.optList lays_fromClause) fun _ =>
    .bare (by simp)

include hr

theorem lays_importAttributes : Lays [] (importAttributes r) :=
  .seq (.orElse (lays_keyword rfl) (lays_keyword rfl)) fun _ =>
    .seq (lays_objectLiteral hr) fun _ => .branch (by simp)

theorem lays_importStatement : Lays [] (importStatement r) := by
  refine .seq (lays_keyword rfl) fun word => ?_
  have rest (kindWord : List Node) : Lays ([word] ++ kindWord) (do
      let parts ← (do
          let clause ← importClause
          let source ← fromClause
          return clause :: source) <|> (do
          let clause ← importRequire
          return [clause])
      let attributes ← opt (importAttributes r)
      let finish ← semicolon
      return Node.branch .importStatement
        ([word] ++ kindWord ++ parts ++ attributes.toList ++ finish)) :=
    .seq (.orElse (.seq lays_importClause fun _ => .seq lays_fromClause fun _ => .bare (by simp))
      (.seq lays_importRequire fun _ => .bare (by simp))) fun _ =>
    .seq (.opt (lays_importAttributes hr)) fun _ => .seq lays_semicolon fun _ => .branch (by simp)
  refine .orElse ?_ <| .orElse ?_ <| .orElse (rest []) (lays_importAlias word)
  · exact .seq lays_string fun _ => .seq (.opt (lays_importAttributes hr)) fun _ =>
      .seq lays_semicolon fun _ => .branch (by simp)
  · exact .seq (.orElse (lays_keyword rfl) (lays_keyword rfl)) fun kindWord => rest [kindWord]

/-- A declaration behind a word, and no mere expression. -/
theorem lays_declaration {α : Type} [HasNodes α] {front : List Node} {f : Node → α}
    (h : ∀ n, Lays (front ++ [n]) (pure (f n) : Reader α)) :
    Lays front (do
      let declaration ← r .statement
      if declaration.kind == .expressionStatement then miss
      else return f declaration) :=
  .seq (hr _) fun n => .either .miss (h n)

theorem lays_defaultExport : Lays [] (defaultExport r) :=
  .seq (lays_keyword rfl) fun _ => .look fun _ => .orElse
    (.either (lays_declaration hr fun _ => .bare (by simp)) .miss)
    (.seq (hr _) fun _ => .seq lays_semicolon fun _ => .bare (by simp))

theorem lays_exportStatement : Lays [] (exportStatement r) := by
  have finished {p : Reader (List Node)} (h : Lays [] p) : Lays [] (do
      let parts ← p
      let attributes ← opt (importAttributes r)
      let finish ← semicolon
      return parts ++ attributes.toList ++ finish) :=
    .seq h fun _ => .seq (.opt (lays_importAttributes hr)) fun _ =>
      .seq lays_semicolon fun _ => .bare (by simp)
  refine .seq (.many (lays_decorator hr)) fun _ => .seq (lays_keyword rfl) fun _ =>
    .seq (.orElse (finished lays_starExport) <| .orElse (finished lays_namedExport) <|
      .orElse ?types <| .orElse (lays_defaultExport hr) <| .orElse ?assigned <|
      .orElse ?global <| .orElse ?short ?declared) fun _ => .branch (by simp)
  case types =>
    exact .seq (lays_keyword rfl) fun _ =>
      .seq (finished (.orElse lays_namedExport lays_starExport))
      fun _ => .bare (by simp)
  case assigned =>
    exact .seq (lays_symbol rfl) fun _ => .seq (hr _) fun _ => .seq lays_semicolon fun _ =>
      .bare (by simp)
  case global =>
    exact .seq (lays_keyword rfl) fun _ => .seq (lays_keyword rfl) fun _ =>
      .seq (lays_name rfl) fun _ => .seq lays_semicolon fun _ => .bare (by simp)
  case short =>
    exact .seq (lays_keyword rfl) fun inner => .bind (lays_importAlias inner) fun _ =>
      .bare (by simp)
  case declared =>
    exact .look fun _ => .look fun _ => .either (lays_declaration hr fun _ => .bare (by simp)) .miss

/-! ### Declarations -/

theorem lays_declarator {value : Rule} : Lays [] (declarator r value) :=
  .seq (hr _) fun _ => .seq (.opt (lays_symbol rfl)) fun _ =>
    .seq (.opt (lays_typeClause hr)) fun _ =>
    .seq (.optList (.seq (lays_symbol rfl) fun _ => .seq (hr _) fun _ => .bare (by simp))) fun _ =>
    .branch (by simp)

theorem lays_variableList {value : Rule} : Lays [] (variableList r value) :=
  .seq (.orElse (lays_keyword rfl) (.orElse (lays_keyword rfl) (lays_keyword rfl))) fun _ =>
    .seq (lays_commaList1 (lays_declarator hr)) fun _ => .bare (by simp)

omit hr in
theorem joins_of_variableList {value : Rule} {s s' : Input} {kind : Kind} {parts : List Node}
    (h : variableList r value s = (some (kind, parts), s')) (behind : List Node) :
    kind.Joins (parts ++ behind) := by
  obtain ⟨_, _, _, h⟩ := bind_eq_some.mp h
  obtain ⟨_, _, _, h⟩ := bind_eq_some.mp h
  cases h
  refine ⟨List.cons_ne_nil _ _, ?_, .inl ?_⟩ <;> split <;> rfl

theorem lays_variableStatement : Lays [] (variableStatement r) := by
  refine .seqOf (lays_variableList hr) fun (kind, parts) _ _ found => ?_
  exact .seq lays_semicolon fun behind => .branch ⟨by simp, joins_of_variableList found behind⟩

theorem lays_typeAlias : Lays [] (typeAlias r) :=
  .seq (lays_keyword rfl) fun _ => .look fun _ => .missIf <| .seq (lays_name rfl) fun _ =>
    .seq (.opt (lays_typeParameters hr)) fun _ => .seq (lays_symbol rfl) fun _ =>
    .seq (hr _) fun _ => .seq lays_semicolon fun _ => .branch (by simp)

theorem lays_extendsClause : Lays [] (extendsClause r) :=
  .seq (lays_keyword rfl) fun _ => .seq (lays_commaList1 (lays_namedType hr)) fun _ =>
    .branch (by simp)

theorem lays_interfaceDeclaration : Lays [] (interfaceDeclaration r) :=
  .seq (lays_keyword rfl) fun _ => .seq (lays_name rfl) fun _ =>
    .seq (.opt (lays_typeParameters hr)) fun _ =>
    .seq (.opt (lays_extendsClause hr)) fun _ => .seq (lays_objectType hr rfl) fun _ =>
    .branch (by simp)

theorem lays_enumMember : Lays [] (enumMember r) :=
  .seq (lays_propertyName hr) fun _ => .orElse
    (.seq (lays_symbol rfl) fun _ => .seq (hr _) fun _ => .branch (by simp)) (.bare (by simp))

theorem lays_enumDeclaration : Lays [] (enumDeclaration r) :=
  .seq (.opt (lays_keyword rfl)) fun const => .seq (lays_keyword rfl) fun word =>
    .seq (lays_name rfl) fun title =>
    .seq (lays_symbol rfl) fun start => .seq (lays_commaList (lays_enumMember hr)) fun members =>
    .seq (lays_symbol rfl) fun close =>
    .inner .enumBody (const.toList ++ [word, title]) (start :: members ++ [close]) (by simp) <|
    .branch (by simp)

theorem lays_classDeclaration : Lays [] (classDeclaration r) :=
  .seq (.many (lays_decorator hr)) fun _ => .seq (.opt (lays_keyword rfl)) fun _ =>
    .weaken (.of_bare (by simp)) (lays_classRest hr (lays_indexSignature hr) rfl _)

theorem lays_moduleDeclaration : Lays [] (moduleDeclaration r) :=
  .seq (.orElse (lays_keyword rfl) (lays_keyword rfl)) fun _ => .look fun _ => .missIf <|
    .seq (.orElse lays_string (.seq (lays_nameBut rfl) fun first => lays_qualified first)) fun _ =>
    .orElse (.seq (lays_block hr) fun _ => .branch (by simp))
      (.either (.seq lays_semicolon fun _ => .branch (by simp)) .miss)

theorem lays_ambientDeclaration : Lays [] (ambientDeclaration r) :=
  .seq (lays_keyword rfl) fun _ => .look fun _ => .missIf <| .orElse
    (.seq (lays_keyword rfl) fun _ => .seq (lays_block hr) fun _ => .branch (by simp))
    (.look fun _ => .look fun _ => .either (lays_declaration hr fun _ => .branch (by simp)) .miss)

/-! ### Other statements -/

theorem lays_condition : Lays [] (condition r) :=
  .seq (lays_symbol rfl) fun _ => .seq (hr _) fun _ => .seq (lays_symbol rfl) fun _ =>
    .role (.branch (by simp))

theorem lays_ifStatement : Lays [] (ifStatement r) :=
  .seq (lays_keyword rfl) fun _ => .seq (lays_condition hr) fun _ => .seq (hr _) fun _ =>
    .seq (.optList (.seq (lays_keyword rfl) fun word => .seq (hr _) fun statement =>
      .inner .elseClause [] [word, statement] (by simp) <| .bare (by simp))) fun _ =>
      .branch (by simp)

theorem lays_overHead : Lays [] (overHead r) :=
  .seq (.orElse
    (.seq (.orElse (lays_keyword rfl) (.orElse (lays_keyword rfl) (lays_keyword rfl))) fun _ =>
      .seq (hr _) fun _ => .bare (by simp))
    (.seq (hr _) fun target => .weaken (fits_asPattern target) (.bare (by simp)))) fun _ =>
  .seq (.orElse (lays_keyword rfl) (lays_keyword rfl)) fun _ => .seq (hr _) fun _ => .bare (by simp)

theorem lays_countHead : Lays [] (countHead r) := by
  refine .seq (.orElse (.seqOf (lays_variableList hr) fun (kind, parts) _ _ found => ?_) ?_)
    fun _ => .seq (.opt (hr _)) fun _ => .seq (lays_symbol rfl) fun _ => .seq (.opt (hr _)) fun _ =>
      .bare (by simp)
  · exact .seq (lays_symbol rfl) fun mark =>
      .inner kind [] (parts ++ [mark]) ⟨by simp, joins_of_variableList found [mark]⟩ <|
      .bare (by simp)
  · refine .seq (.opt (lays_commaList1 (hr _))) fun value => .seq (lays_symbol rfl) fun _ => ?_
    cases value <;> exact .bare (by simp)

theorem lays_forStatement : Lays [] (forStatement r) := by
  refine .seq (lays_keyword rfl) fun _ => .seq (.opt (lays_keyword rfl)) fun _ =>
    .seq (lays_symbol rfl) fun _ => .seqOf
      (.orElse (.seq (lays_overHead hr) fun _ => .seq (lays_symbol rfl) fun _ => .bare (by simp))
        (.seq (lays_countHead hr) fun _ => .seq (lays_symbol rfl) fun _ => .bare (by simp)))
    fun (kind, _) _ _ found => .seq (hr _) fun _ => ?_
  have proper : (kind == .comment) = false := by
    rcases orElse_eq_some found with head | ⟨_, head⟩ <;>
    · obtain ⟨_, _, _, h⟩ := bind_eq_some.mp head
      obtain ⟨_, _, _, h⟩ := bind_eq_some.mp h
      cases h
      rfl
  exact .branch ⟨by simp, by simp, proper, .inr (by simp)⟩

theorem lays_whileStatement : Lays [] (whileStatement r) :=
  .seq (lays_keyword rfl) fun _ => .seq (lays_condition hr) fun _ => .seq (hr _) fun _ =>
    .branch (by simp)

theorem lays_doStatement : Lays [] (doStatement r) :=
  .seq (lays_keyword rfl) fun _ => .seq (hr _) fun _ => .seq (lays_keyword rfl) fun _ =>
    .seq (lays_condition hr) fun _ => .seq (.opt (lays_symbol rfl)) fun _ => .branch (by simp)

theorem lays_switchCase : Lays [] (switchCase r) :=
  .seq (.orElse
    (.seq (lays_keyword rfl) fun _ => .seq (lays_before (hr _) (hr _)) fun _ => .bare (by simp))
    (.seq (lays_keyword rfl) fun _ => .bare (by simp))) fun _ =>
  .seq (lays_symbol rfl) fun _ => .seq (.many (hr _)) fun _ => .branch (by simp)

theorem lays_switchStatement : Lays [] (switchStatement r) :=
  .seq (lays_keyword rfl) fun word => .seq (lays_condition hr) fun test =>
    .seq (lays_symbol rfl) fun start =>
    .seq (.many (lays_switchCase hr)) fun cases => .seq (lays_symbol rfl) fun close =>
    .inner .switchBody [word, test] (start :: cases ++ [close]) (by simp) <| .branch (by simp)

theorem lays_tryStatement : Lays [] (tryStatement r) := by
  refine .seq (lays_keyword rfl) fun _ => .seq (lays_block hr) fun _ =>
    .seq (.optList ?handler) fun _ => .seq (.optList ?last) fun _ => .branch (by simp)
  case handler =>
    exact .seq (lays_keyword rfl) fun word =>
      .seq (.optList (.seq (lays_symbol rfl) fun _ => .seq (hr _) fun _ =>
        .seq (.opt (lays_typeClause hr)) fun _ => .seq (lays_symbol rfl) fun _ =>
        .bare (by simp))) fun parameter =>
      .seq (lays_block hr) fun body =>
      .inner .catchClause [] ([word] ++ parameter ++ [body.withRole .body]) (by simp) <|
      .bare (by simp)
  case last =>
    exact .seq (lays_keyword rfl) fun word => .seq (lays_block hr) fun body =>
      .inner .finallyClause [] [word, body.withRole .body] (by simp) <| .bare (by simp)

omit hr in
theorem lays_jump {word : String} {kind : Kind} {value : Reader Node} (h : Lays [] value)
    (some : word.isEmpty = false) (tag : kind.tag? = none) (proper : (kind == .comment) = false) :
    Lays [] (jump word kind value) :=
  .seq (lays_keyword some) fun _ => .look fun _ => .eitherSeq (.bare (by simp)) (.opt h) fun _ =>
    .seq lays_semicolon fun _ => .branch ⟨by simp, by simp, proper, .inl tag⟩

theorem lays_withStatement : Lays [] (withStatement r) :=
  .seq (lays_keyword rfl) fun _ => .seq (lays_condition hr) fun _ => .seq (hr _) fun _ =>
    .branch (by simp)

theorem lays_labeledStatement : Lays [] (labeledStatement r) :=
  .seq (lays_name rfl) fun _ => .seq (lays_symbol rfl) fun _ => .seq (hr _) fun _ =>
    .branch (by simp)

theorem lays_expressionStatement : Lays [] (expressionStatement r) :=
  .seq (hr _) fun _ => .seq lays_semicolon fun _ => .branch (by simp)

theorem lays_contextual {p : Reader Node} (h : Lays [] p) : Lays [] (contextual r p) :=
  .orElse h (.orElse (lays_labeledStatement hr) (lays_expressionStatement hr))

/-- Statements are laid out when what is nested in them is. -/
theorem lays_statementRule : Lays [] (statementRule r) := by
  refine .look fun _ => ?_
  split
  · exact .orElse (lays_block hr) (lays_expressionStatement hr)
  · exact .seq (lays_symbol rfl) fun _ => .branch (by simp)
  · exact .orElse (lays_exportStatement hr) (lays_classDeclaration hr)
  refine .look fun _ => ?_
  split
  · exact .orElse (lays_importStatement hr) (lays_expressionStatement hr)
  · exact lays_exportStatement hr
  · exact .orElse (lays_enumDeclaration hr) (lays_variableStatement hr)
  · exact lays_variableStatement hr
  · exact lays_contextual hr (lays_variableStatement hr)
  · exact lays_functionDeclaration hr
  · exact lays_contextual hr (lays_functionDeclaration hr)
  · exact lays_classDeclaration hr
  · exact lays_contextual hr (lays_classDeclaration hr)
  · exact lays_contextual hr (lays_typeAlias hr)
  · exact lays_contextual hr (lays_interfaceDeclaration hr)
  · exact lays_enumDeclaration hr
  · exact lays_contextual hr (lays_moduleDeclaration hr)
  · exact lays_contextual hr (lays_moduleDeclaration hr)
  · exact lays_contextual hr (lays_ambientDeclaration hr)
  · exact lays_ifStatement hr
  · exact lays_forStatement hr
  · exact lays_whileStatement hr
  · exact lays_doStatement hr
  · exact lays_switchStatement hr
  · exact lays_tryStatement hr
  · exact lays_jump (hr _) rfl rfl rfl
  · exact lays_jump (hr _) rfl rfl rfl
  · exact lays_jump (lays_name rfl) rfl rfl rfl
  · exact lays_jump (lays_name rfl) rfl rfl rfl
  · exact lays_jump .miss rfl rfl rfl
  · exact lays_withStatement hr
  · exact lays_expressionStatement hr
  · exact .orElse (lays_labeledStatement hr) (lays_expressionStatement hr)

end ParamSchema.Parse.Reader
