import ParamSchema.Parse.Types
import ParamSchema.Proofs.Layout.Reader

/-!
The parts that rules share, and types, are laid out when what is nested in them is.
-/

namespace ParamSchema.Parse.Reader

variable {r : Rules} {rule : Rule} (hr : ∀ rule, Lays [] (r rule))

/-! ### Shared parts -/

theorem lays_before {w : String} {p q : Reader Node} (hp : Lays [] p) (hq : Lays [] q) :
    Lays [] (before w p q) :=
  .orElse (.seq hp fun _ => .look fun _ => .either (.bare (by simp)) (.toToken .miss)) hq

theorem lays_semicolon : Lays [] semicolon :=
  .look fun _ => .either (.seq (lays_symbol rfl) fun _ => .bare (by simp)) <|
    .either (.bare (by simp)) <| .look fun _ => .either (.bare (by simp)) <| .look fun _ =>
    .either (.bare (by simp)) .miss

theorem lays_modifier {words : List String} (some : words.contains "" = false) :
    Lays [] (modifier words) :=
  .seq (lays_anyKeyword some) fun _ => .look fun _ =>
    .either .miss <| .look fun _ => .either .miss (.bare (by simp))

include hr

theorem lays_propertyName : Lays [] (propertyName r) :=
  .orElse lays_string <| .orElse lays_number <|
    .orElse (.seq (lays_symbol rfl) fun _ => .seq (hr _) fun _ => .seq (lays_symbol rfl) fun _ =>
      .branch (by simp)) <|
    .orElse (.seq (lays_symbol rfl) fun _ => .seq (lays_name rfl) fun _ => .branch (by simp))
      (lays_name rfl)

theorem lays_typeClause : Lays [] (typeClause r) :=
  .seq (lays_symbol rfl) fun _ => .seq (hr _) fun _ => .role (.branch (by simp))

theorem lays_typeArguments : Lays [] (typeArguments r) :=
  .seq lays_bracket fun _ => .seq (lays_commaList1 (hr _)) fun _ =>
    .seq (.opt (lays_symbol rfl)) fun _ => .seq lays_bracket fun _ => .role (.branch (by simp))

theorem lays_typeParameter : Lays [] (typeParameter r) :=
  .seq (.many (lays_modifier rfl)) fun _ => .seq (lays_name rfl) fun _ =>
    .seq (.optList (.seq (lays_keyword rfl) fun _ => .seq (hr _) fun _ => .bare (by simp))) fun _ =>
    .seq (.optList (.seq (lays_symbol rfl) fun _ => .seq (hr _) fun _ => .bare (by simp))) fun _ =>
    .branch (by simp)

theorem lays_typeParameters : Lays [] (typeParameters r) :=
  .seq lays_bracket fun _ => .seq (lays_commaList (lays_typeParameter hr)) fun _ =>
    .seq lays_bracket fun _ => .role (.branch (by simp))

theorem lays_resultType : Lays [] (resultType r rule) :=
  .orElse (.seq (lays_keyword rfl) fun _ => .seq (lays_name rfl) fun _ => .look fun _ => .missIf <|
    .seq (.optList (.seq (lays_keyword rfl) fun _ => .seq (hr _) fun _ => .bare (by simp))) fun _ =>
    .branch (by simp)) <|
  .orElse (.seq (lays_name rfl) fun _ => .look fun _ => .missIf <|
    .seq (lays_keyword rfl) fun _ => .seq (hr _) fun _ => .branch (by simp)) (hr _)

theorem lays_resultClause : Lays [] (resultClause r rule) :=
  .seq (lays_symbol rfl) fun _ => .seq (lays_resultType hr) fun _ => .role (.branch (by simp))

theorem lays_decorator : Lays [] (decorator r) :=
  .seq (lays_symbol rfl) fun _ => .seq (hr _) fun _ => .branch (by simp)

theorem lays_parameter : Lays [] (parameter r) := by
  refine .seq (.many (lays_decorator hr)) fun decorators =>
    .seq (.many (lays_modifier rfl)) fun words =>
    .seq (.opt (lays_symbol rfl)) fun rest => .seq (hr _) fun target => ?_
  rcases rest with _ | dots
  case' some => refine .inner .restPattern (decorators ++ words) [dots, target] (by simp) ?_
  all_goals
    exact .seq (.opt (lays_symbol rfl)) fun _ => .seq (.opt (lays_typeClause hr)) fun _ =>
      .seq (.optList (.seq (lays_symbol rfl) fun _ => .seq (hr _) fun _ =>
        .bare (by simp))) fun _ =>
      .branch ⟨by simp, by simp, by split <;> rfl, .inl (by split <;> rfl)⟩

theorem lays_parameters : Lays [] (parameters r) :=
  .seq (lays_symbol rfl) fun _ => .seq (lays_commaList (lays_parameter hr)) fun _ =>
    .seq (lays_symbol rfl) fun _ => .role (.branch (by simp))

theorem lays_callSignature : Lays [] (callSignature r) :=
  .seq (.opt (lays_typeParameters hr)) fun _ => .seq (lays_parameters hr) fun _ =>
    .seq (.opt (lays_resultClause hr)) fun _ => .bare (by simp)

omit hr in
theorem ne_nil_of_callSignature {s s' : Input} {ns : List Node}
    (h : callSignature r s = (some ns, s')) : ns ≠ [] := by
  obtain ⟨_, _, _, h⟩ := bind_eq_some.mp h
  obtain ⟨_, _, _, h⟩ := bind_eq_some.mp h
  obtain ⟨_, _, _, h⟩ := bind_eq_some.mp h
  cases h
  simp

theorem lays_block : Lays [] (block r) :=
  .seq (lays_symbol rfl) fun _ => .seq (.many (hr _)) fun _ => .seq (lays_symbol rfl) fun _ =>
    .branch (by simp)

/-! ### Members of object types -/

theorem lays_indexClause : Lays [] (indexClause r) :=
  .seq (.opt (.orElse (lays_symbol rfl) (lays_symbol rfl))) fun _ =>
    .seq (.opt (lays_symbol rfl)) fun _ =>
    .seq (lays_symbol rfl) fun _ => .seq (hr _) fun _ => .role (.branch (by simp))

theorem lays_indexSignature : Lays [] (indexSignature r) :=
  .seq (.optList (.seq (.opt (.orElse (lays_symbol rfl) (lays_symbol rfl))) fun _ =>
    .seq (lays_keyword rfl) fun _ => .bare (by simp))) fun _ =>
  .seq (lays_symbol rfl) fun _ =>
  .seq (.orElse
    (.seq (lays_name rfl) fun _ => .seq (lays_symbol rfl) fun _ => .seq (hr _) fun _ =>
      .bare (by simp))
    (.seq (lays_name rfl) fun key => .seq (lays_keyword rfl) fun word => .seq (hr _) fun type =>
      .seq (.optList (.seq (lays_keyword rfl) fun _ => .seq (hr _) fun _ =>
        .bare (by simp))) fun rename =>
      .inner .mappedTypeClause [] ([key.withRole .name, word, type] ++ rename) (by simp) <|
      .bare (by simp))) fun _ =>
  .seq (lays_symbol rfl) fun _ => .seq (.opt (lays_indexClause hr)) fun _ => .branch (by simp)

theorem lays_callMember : Lays [] (callMember r) :=
  .orElse
    (.seq (lays_keyword rfl) fun _ => .seq (lays_callSignature hr) fun _ => .branch (by simp))
    (.seqOf (lays_callSignature hr) fun _ _ _ h => .branch (by simp [ne_nil_of_callSignature h]))

theorem lays_namedMember : Lays [] (namedMember r) :=
  .seq (.many (lays_modifier rfl)) fun _ => .seq (.opt (lays_symbol rfl)) fun _ =>
    .seq (lays_propertyName hr) fun _ => .seq (.opt (lays_symbol rfl)) fun _ =>
    .orElse (.seq (lays_callSignature hr) fun _ => .branch (by simp))
      (.seq (.opt (lays_typeClause hr)) fun _ => .branch (by simp))

omit hr in
theorem lays_memberEnd : Lays [] memberEnd :=
  .orElse (.seq (.orElse (lays_symbol rfl) (lays_symbol rfl)) fun _ =>
    .bare (by simp)) lays_semicolon

theorem lays_objectType {kind : Kind} (proper : (kind == .comment) = false) :
    Lays [] (objectType kind r) :=
  .seq (lays_symbol rfl) fun _ => .seq (.opt (.orElse (lays_symbol rfl) (lays_symbol rfl))) fun _ =>
    .seq (.many (.seq
      (.orElse (lays_indexSignature hr) (.orElse (lays_callMember hr) (lays_namedMember hr)))
      fun _ => .seq lays_memberEnd fun _ => .bare (by simp))) fun _ =>
    .seq (lays_symbol rfl) fun _ => .branch (by simp [proper])

/-! ### Single types -/

omit hr in
theorem lays_qualified (first : Node) : Lays [first] (qualified first) := by
  refine .extend (fun outer => ?_) first
  -- Only the last name of a qualified name is a type's.
  have tag : (if outer.kind == .typeIdentifier then Kind.identifier
      else .nestedIdentifier).tag? = none := by split <;> rfl
  exact .weaken (.withKind outer _ tag (by split <;> rfl)) <|
    .seq (lays_symbol rfl) fun _ => .seq (lays_name rfl) fun _ => .branch (by simp)

theorem lays_namedType : Lays [] (namedType r) :=
  .seq (lays_nameBut rfl) fun first => .bind (lays_qualified first) fun _ =>
    .orElse (.seq (lays_typeArguments hr) fun _ => .branch (by simp)) (.bare (by simp))

omit hr in
theorem lays_predefinedType : Lays [] predefinedType :=
  .look fun _ => .either (lays_name rfl)
    (.seq (lays_keyword rfl) fun _ => .seq (lays_keyword rfl) fun _ => .branch (by simp))

omit hr in
theorem lays_literalType : Lays [] literalType := by
  refine .seq (.orElse lays_string <| .orElse lays_number <| .orElse
    (.seq (.orElse (lays_symbol rfl) (lays_symbol rfl)) fun _ => .seq lays_number fun _ =>
      .branch (by simp))
    (.look fun _ => ?_)) fun _ => .branch (by simp)
  split
  any_goals exact lays_name rfl
  exact .miss

theorem lays_importType : Lays [] (importType r) :=
  .seq (lays_keyword rfl) fun word => .weaken (.withKind word .importCallee rfl rfl) <|
    .seq (lays_symbol rfl) fun start => .seq (lays_commaList (hr _)) fun items =>
    .seq (lays_symbol rfl) fun close =>
    .inner .arguments [word.withKind .importCallee] (start :: items ++ [close]) (by simp) <|
    .branch (by simp)

omit hr in
theorem lays_members (first : Node) : Lays [first] (members first) :=
  .extend (fun _ => .seq (lays_symbol rfl) fun _ =>
    .seq (.orElse (lays_symbol rfl) (lays_name rfl)) fun _ => .branch (by simp))
    first

theorem lays_typeQuery : Lays [] (typeQuery r) :=
  .seq (lays_keyword rfl) fun word =>
    .seq (.orElse (lays_importType hr) (lays_name rfl)) fun subject =>
    .carry [word] (by simp) (lays_members subject) fun _ =>
    .seq (.opt (lays_typeArguments hr)) fun _ => .branch (by simp)

theorem lays_tupleMember : Lays [] (tupleMember r) := by
  refine .seq (.opt (lays_symbol rfl)) fun dots => .orElse
    (.seq (lays_name rfl) fun _ => .seq (.opt (lays_symbol rfl)) fun _ =>
      .seq (lays_typeClause hr) fun _ => .branch (by simp))
    (.seq (hr _) fun _ => ?_)
  cases dots with
  | some _ => exact .branch (by simp)
  | none => exact .orElse (.seq (lays_symbol rfl) fun _ => .branch (by simp)) (.bare (by simp))

theorem lays_tupleType : Lays [] (tupleType r) :=
  .seq (lays_symbol rfl) fun _ => .seq (lays_commaList (lays_tupleMember hr)) fun _ =>
    .seq (lays_symbol rfl) fun _ => .branch (by simp)

theorem lays_parenthesizedType : Lays [] (parenthesizedType r) :=
  .seq (lays_symbol rfl) fun _ => .seq (hr _) fun _ => .seq (lays_symbol rfl) fun _ =>
    .branch (by simp)

theorem lays_functionType : Lays [] (functionType r rule) :=
  .seq (.opt (lays_typeParameters hr)) fun _ => .seq (lays_parameters hr) fun _ =>
    .seq (lays_symbol rfl) fun _ => .seq (lays_resultType hr) fun _ => .branch (by simp)

theorem lays_constructorType : Lays [] (constructorType r rule) :=
  .seq (.opt (lays_keyword rfl)) fun _ => .seq (lays_keyword rfl) fun _ =>
    .seq (.opt (lays_typeParameters hr)) fun _ => .seq (lays_parameters hr) fun _ =>
    .seq (lays_symbol rfl) fun _ => .seq (hr _) fun _ => .branch (by simp)

theorem lays_simpleType : Lays [] (simpleType r) := by
  refine .look fun _ => ?_
  split
  · exact lays_objectType hr rfl
  · exact lays_tupleType hr
  · exact lays_parenthesizedType hr
  · exact lays_template (hr _) rfl
  · refine .look fun _ => ?_
    split
    · exact lays_typeQuery hr
    · exact lays_name rfl
    · exact lays_keyword rfl
    · exact .seq (lays_importType hr) fun call => lays_members call
    · exact .orElse lays_literalType (.orElse lays_predefinedType (lays_namedType hr))

theorem lays_bracketed (type : Node) : Lays [type] (bracketed r type) :=
  .extend (fun _ => .seq (lays_symbol rfl) fun _ =>
    .orElse (.seq (lays_symbol rfl) fun _ => .branch (by simp))
    (.seq (hr _) fun _ => .seq (lays_symbol rfl) fun _ => .branch (by simp))) type

theorem lays_inferType : Lays [] (inferType r) :=
  .seq (lays_keyword rfl) fun _ => .seq (lays_name rfl) fun _ =>
    .seq (.optList (.seq (lays_keyword rfl) fun _ => .seq (hr _) fun _ => .look fun _ =>
      .either .miss (.bare (by simp)))) fun _ => .branch (by simp)

omit hr in
theorem fits_foldr_branch {kind : Kind} (proper : (kind == .comment) = false) (words : List Node)
    (n : Node) :
    Node.Fits (words ++ [n]) [words.foldr (fun word n => .branch kind [word, n]) n] := by
  induction words with
  | nil => exact .refl [n]
  | cons word words ih => exact .branch (.append (.refl [word]) ih) (by simp [proper])

theorem lays_typeOperand : Lays [] (typeOperand r rule) := by
  have plain : Lays [] (simpleType r >>= fun type => bracketed r type) :=
    .seq (lays_simpleType hr) fun type => lays_bracketed hr type
  refine .look fun _ => ?_
  split
  · exact .seq (.many (lays_keyword rfl)) fun words => .seq (lays_simpleType hr) fun type =>
      .carry words (by simp) (lays_bracketed hr type) fun type =>
      .pure (fits_foldr_branch rfl words type)
  · exact .seq (lays_keyword rfl) fun _ => .seq (hr _) fun _ => .branch (by simp)
  · exact lays_inferType hr
  · exact lays_constructorType hr
  · exact .orElse (lays_constructorType hr)
      (.seq (lays_namedType hr) fun type => lays_bracketed hr type)
  · refine .look fun _ => ?_
    split
    · exact lays_functionType hr
    · exact .look fun _ => .either (.orElse (lays_functionType hr) plain) plain
    · exact plain

omit hr in
theorem lays_chain {kind : Kind} {mark : String} {operand : Reader Node} (h : Lays [] operand)
    (some : mark.isEmpty = false) (proper : (kind == .comment) = false) :
    Lays [] (chain kind mark operand) := by
  refine .seq (.opt (lays_symbol some)) fun leading => .seq h fun first => ?_
  have step : ∀ left : Node, Lays [left] (symbol mark >>= fun token => operand >>= fun right =>
      pure (Node.branch kind [left, token, right])) :=
    fun _ => .seq (lays_symbol some) fun _ => .seq h fun _ => .branch (by simp [proper])
  cases leading with
  | none => exact .extend step first
  | some token =>
    exact .inner kind [] [token, first] (by simp [proper])
      (.extend step (.branch kind [token, first]))

theorem lays_unionType : Lays [] (unionType r rule) :=
  lays_chain (lays_chain (lays_typeOperand hr) rfl rfl) rfl rfl

/-- Types are laid out when what is nested in them is. -/
theorem lays_typeRule : Lays [] (typeRule r rule) :=
  .seq (lays_unionType hr) fun _ => .orElse
    (.look fun _ => .missIf <| .seq (lays_keyword rfl) fun _ => .seq (lays_unionType hr) fun _ =>
      .seq (lays_symbol rfl) fun _ => .seq (hr _) fun _ => .seq (lays_symbol rfl) fun _ =>
      .seq (hr _) fun _ => .branch (by simp)) (.bare (by simp))

end ParamSchema.Parse.Reader
