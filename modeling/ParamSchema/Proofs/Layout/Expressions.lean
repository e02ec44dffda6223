import ParamSchema.Parse.Expressions
import ParamSchema.Proofs.Layout.Types

/-!
Patterns, functions, markup and expressions are laid out when what is nested in them is. Where
operators are grouped after the operands have been read, the parts keep their order
(`fits_group`), also where an operator in front moves into the callee behind it
(`fits_applyOperator`).
-/

namespace ParamSchema.Parse.Reader

/-! ### Expressions read as patterns -/

theorem start_asPattern (n : Node) : (asPattern n).start = n.start := by
  cases n
  unfold asPattern
  split <;> rfl

theorem stop_asPattern (n : Node) : (asPattern n).stop = n.stop := by
  cases n
  unfold asPattern
  split <;> rfl

theorem asPatterns_eq_nil {ns : List Node} (h : ns = []) : asPatterns ns = [] := by
  rw [h]
  rfl

mutual

theorem nested_asPattern {gaps : Gaps} :
    (n : Node) → n.Nested gaps → (asPattern n).Nested gaps
  | .mk kind role start stop line children, h => by
    obtain ⟨covers, inside, proper, _⟩ := Node.nested_iff.mp h
    have inside' : asPatterns children = [] ∨ Node.Between gaps start stop (asPatterns children) :=
      inside.imp asPatterns_eq_nil (between_asPatterns start stop children)
    unfold asPattern
    split
    case h_5 | h_6 => exact Node.nested_iff.mpr ⟨covers, inside, rfl, .inl rfl⟩
    case h_7 => exact h
    all_goals exact Node.nested_iff.mpr ⟨covers, inside', rfl, .inl rfl⟩

theorem between_asPatterns {gaps : Gaps} : (a b : Nat) → (ns : List Node) →
    Node.Between gaps a b ns → Node.Between gaps a b (asPatterns ns)
  | _, _, [], h => h
  | a, b, n :: ns, h => by
    obtain ⟨before, nested, behind⟩ := Node.between_cons.mp h
    rw [asPatterns, Node.between_cons, start_asPattern, stop_asPattern]
    exact ⟨before, nested_asPattern n nested, between_asPatterns n.stop b ns behind⟩

end

theorem fits_asPattern (n : Node) : Node.Fits [n] [asPattern n] :=
  fun _ a b => between_asPatterns a b [n]

/-! ### Operators grouped around operands -/

/-- A new first part of a node, which takes up nodes in front of the old one. -/
theorem fits_first {kind : Kind} {role : Option Role} {start start' stop line line' : Nat}
    {front rest : List Node} {first first' : Node} (tag : kind.tag? = none)
    (begins : first'.start = start') (fits : Node.Fits (front ++ [first]) [first']) :
    Node.Fits (front ++ [.mk kind role start stop line (first :: rest)])
      [.mk kind role start' stop line' (first' :: rest)] := by
  intro gaps a b lies
  subst begins
  obtain ⟨c, liesFront, liesNode⟩ := lies.of_append
  obtain ⟨before, nested, behind⟩ := Node.Between.singleton_iff.mp liesNode
  obtain ⟨⟨_, place⟩, none | inside, proper, _⟩ := Node.nested_iff.mp nested
  · cases none
  obtain ⟨within, nestedFirst, liesRest⟩ := Node.between_cons.mp inside
  have liesFirst : Node.Between gaps c first.stop [first] :=
    Node.Between.singleton_iff.mpr ⟨gaps.trans before within, nestedFirst, gaps.refl _⟩
  obtain ⟨before', nested', behind'⟩ :=
    Node.Between.singleton_iff.mp (fits (liesFront.append liesFirst))
  have inside' : Node.Between gaps first'.start stop (first' :: rest) :=
    Node.between_cons.mpr ⟨gaps.refl _, nested', liesRest.mono behind' (gaps.refl _)⟩
  refine Node.Between.singleton_iff.mpr ⟨before', ?_, behind⟩
  exact Node.nested_iff.mpr ⟨⟨(nested'.start_lt_stop.trans_le (gaps.le behind')).trans_le
    liesRest.le, place⟩, .inr inside', proper, .inl tag⟩

theorem tag?_of_callee {kind : Kind} (h : [Kind.callExpression, .memberExpression,
    .subscriptExpression, .nonNullExpression].contains kind = true) : kind.tag? = none := by
  simp only [List.contains_iff_mem, List.mem_cons, List.not_mem_nil, or_false] at h
  rcases h with rfl | rfl | rfl | rfl <;> rfl

theorem fits_wrapGenericCallee {wrap : Node → Node} {front : List Node}
    (h : ∀ n, Node.Fits (front ++ [n]) [wrap n]) :
    (n n' : Node) → wrapGenericCallee wrap n = some n' → Node.Fits (front ++ [n]) [n']
  | .mk _ _ _ _ _ [], _, wrapped => by
    rw [wrapGenericCallee] at wrapped
    cases wrapped
  | .mk kind role start stop line (first :: rest), n', wrapped => by
    rw [wrapGenericCallee] at wrapped
    dsimp only at wrapped
    split at wrapped
    case isTrue callee =>
      have tag := tag?_of_callee callee
      split at wrapped
      case h_1 first' inner found _ =>
        cases wrapped
        have fits := fits_wrapGenericCallee h first first' found
        exact fits_first tag rfl (fits.trans (.of_bare (by simp)))
      case h_2 first' found _ =>
        cases wrapped
        exact fits_first tag rfl (fits_wrapGenericCallee h first first' found)
      case h_3 =>
        split at wrapped
        · cases wrapped
          have begins : ((wrap first).withRole .function).start = (wrap first).start := by
            cases wrap first
            rfl
          exact fits_first tag begins ((h first).trans (.of_bare (by simp)))
        · cases wrapped
    case isFalse => cases wrapped

/-- An operator and what is in front of it, applied to an operand behind them. -/
theorem fits_applyOperator {wrap : Node → Node} {front : List Node}
    (h : ∀ n, Node.Fits (front ++ [n]) [wrap n]) (n : Node) :
    Node.Fits (front ++ [n]) [applyOperator wrap n] := by
  rw [applyOperator]
  cases wrapped : wrapGenericCallee wrap n with
  | none => exact h n
  | some n' => exact fits_wrapGenericCallee h n n' wrapped

theorem fits_binary (left mark right : Node) :
    Node.Fits ([left, mark] ++ [right]) [binary left mark right] :=
  .branch (.of_bare (by simp)) (by simp)

/-- The operands and marks of open operators, in source order. -/
def openNodes : List OpenOperator → List Node
  | [] => []
  | top :: outer => openNodes outer ++ [top.left, top.mark]

theorem fits_close (precedence : Nat) (opened : List OpenOperator) (right : Node) :
    Node.Fits (openNodes opened ++ [right])
      (openNodes (close precedence opened right).1 ++ [(close precedence opened right).2]) := by
  induction opened generalizing right with
  | nil => exact .refl [right]
  | cons top outer ih =>
    rw [close]
    split
    · have closed : Node.Fits ([top.left, top.mark] ++ [right])
          [if top.precedence < 9 then binary top.left top.mark right
            else applyOperator (binary top.left top.mark) right] := by
        split
        · exact fits_binary _ _ _
        · exact fits_applyOperator (fits_binary _ _) right
      refine .trans ?_ (ih _)
      rw [openNodes, List.append_assoc]
      exact .append (.refl _) closed
    · exact .refl _

/-- At the end all operators are closed. -/
theorem close_zero (opened : List OpenOperator) (right : Node) : (close 0 opened right).1 = [] := by
  induction opened generalizing right with
  | nil => rfl
  | cons top outer ih =>
    rw [close, if_pos, ih]
    cases top.precedence <;> rfl

instance : HasNodes Link where
  nodes
    | .operator _ mark operand => [mark, operand]
    | .ascribed _ parts => parts

@[simp] theorem nodes_operator (precedence : Nat) (mark operand : Node) :
    HasNodes.nodes (Link.operator precedence mark operand) = [mark, operand] := rfl

@[simp] theorem nodes_ascribed (kind : Kind) (parts : List Node) :
    HasNodes.nodes (Link.ascribed kind parts) = parts := rfl

/-- A type is ascribed by some nodes, of which a node is made that is no comment. -/
def Ascribes : Link → Prop
  | .operator _ _ _ => True
  | .ascribed kind parts => parts ≠ [] ∧ (kind == .comment) = false

/-- Grouping by precedence keeps the order of operands and operators. -/
theorem fits_group (opened : List OpenOperator) (last : Node) (links : List Link)
    (ascribes : ∀ link ∈ links, Ascribes link) :
    Node.Fits (openNodes opened ++ [last] ++ HasNodes.nodes links) [group opened last links] := by
  induction links generalizing opened last with
  | nil =>
    have closed := fits_close 0 opened last
    rw [close_zero] at closed
    exact .trans (.of_bare (by simp)) closed
  | cons link links ih =>
    have ascribes' : ∀ link ∈ links, Ascribes link :=
      fun link hlink => ascribes link (List.mem_cons_of_mem _ hlink)
    rw [nodes_cons]
    cases link with
    | operator precedence mark operand =>
      have closed := fits_close precedence opened last
      rcases h : close precedence opened last with ⟨outer, left⟩
      rw [h] at closed
      have grouped := ih (⟨precedence, left, mark⟩ :: outer) operand ascribes'
      have order : openNodes (⟨precedence, left, mark⟩ :: outer) ++ [operand] ++
          HasNodes.nodes links = openNodes outer ++ [left] ++ ([mark, operand] ++
          HasNodes.nodes links) := by simp [openNodes]
      rw [group, h]
      rw [order] at grouped
      exact (closed.append (.refl _)).trans grouped
    | ascribed kind parts =>
      have closed := fits_close 8 opened last
      rcases h : close 8 opened last with ⟨outer, left⟩
      rw [h] at closed
      have grouped := ih outer (.branch kind (left :: parts)) ascribes'
      obtain ⟨some, proper⟩ : Ascribes (.ascribed kind parts) := ascribes _ List.mem_cons_self
      have node : Node.Fits ([left] ++ parts) [.branch kind (left :: parts)] :=
        .branch (.refl _) ⟨by simp, proper, .inr (by simpa using some)⟩
      have order : openNodes outer ++ [left] ++ (parts ++ HasNodes.nodes links) =
          openNodes outer ++ ([left] ++ parts) ++ HasNodes.nodes links := by simp
      rw [group, h]
      refine (closed.append (.refl _)).trans (.trans ?_ grouped)
      rw [nodes_ascribed, order]
      exact ((Node.Fits.refl _).append node).append (.refl _)

variable {r : Rules} {rule : Rule} (hr : ∀ rule, Lays [] (r rule))

include hr

/-! ### Patterns -/

theorem lays_patternDefault (target : Node) : Lays [target] (patternDefault r target) :=
  .orElse (.seq (lays_symbol rfl) fun _ => .seq (hr _) fun _ => .branch (by simp)) (.bare (by simp))

theorem lays_patternMember : Lays [] (patternMember r) :=
  .orElse (.seq (lays_symbol rfl) fun _ => .seq (hr _) fun _ => .branch (by simp)) <|
  .orElse (.seq (lays_propertyName hr) fun key => .seq (lays_symbol rfl) fun colon =>
    .seq (hr _) fun target => .carry [key, colon] (by simp) (lays_patternDefault hr target) fun _ =>
    .branch (by simp)) <|
  .seq (lays_name rfl) fun target => lays_patternDefault hr target

theorem lays_patternElement : Lays [] (patternElement r) :=
  .orElse (lays_symbol rfl) <| .orElse (.seq (lays_symbol rfl) fun _ => .seq (hr _) fun _ =>
    .branch (by simp)) <|
  .seq (hr _) fun target => lays_patternDefault hr target

theorem lays_patternRule : Lays [] (patternRule r) := by
  refine .look fun _ => ?_
  split
  · exact .seq (lays_symbol rfl) fun _ => .seq (lays_commaList (lays_patternMember hr)) fun _ =>
      .seq (lays_symbol rfl) fun _ => .branch (by simp)
  · exact .seq (lays_symbol rfl) fun _ => .seq (.many (lays_patternElement hr)) fun _ =>
      .seq (lays_symbol rfl) fun _ => .branch (by simp)
  · exact lays_name rfl

/-! ### Functions and classes -/

omit hr in
theorem lays_asyncWord : Lays [] asyncWord :=
  .seq (lays_keyword rfl) fun _ => .look fun _ => .either .miss (.bare (by simp))

theorem lays_functionHead : Lays [] (functionHead r) :=
  .seq (.opt lays_asyncWord) fun _ => .seq (lays_keyword rfl) fun _ =>
    .seq (.opt (lays_symbol rfl)) fun _ =>
    .seq (.opt (lays_name rfl)) fun _ => .seq (lays_callSignature hr) fun _ => .bare (by simp)

theorem lays_functionExpression : Lays [] (functionExpression r) :=
  .seq (lays_functionHead hr) fun _ => .seq (lays_block hr) fun _ => .branch (by simp)

omit hr in
theorem ne_nil_of_functionHead {s s' : Input} {ns : List Node}
    (h : functionHead r s = (some ns, s')) : ns ≠ [] := by
  obtain ⟨_, _, _, h⟩ := bind_eq_some.mp h
  obtain ⟨_, _, _, h⟩ := bind_eq_some.mp h
  obtain ⟨_, _, _, h⟩ := bind_eq_some.mp h
  obtain ⟨_, _, _, h⟩ := bind_eq_some.mp h
  obtain ⟨_, _, _, h⟩ := bind_eq_some.mp h
  cases h
  simp

theorem lays_functionDeclaration : Lays [] (functionDeclaration r) :=
  .seqOf (lays_functionHead hr) fun _ _ _ h => .orElse
    (.seq (lays_block hr) fun _ => .branch (by simp))
    (.seq lays_semicolon fun _ => .branch (by simp [ne_nil_of_functionHead h]))

theorem lays_arrowBody : Lays [] (arrowBody r rule) :=
  .look fun _ => .either (lays_block hr) (hr _)

theorem lays_arrowRest (front : List Node) : Lays front (arrowRest r rule front) :=
  .seq (lays_symbol rfl) fun _ => .seq (lays_arrowBody hr) fun _ => .branch (by simp)

theorem lays_arrowWithParameters (front : List Node) :
    Lays front (arrowWithParameters r rule front) :=
  .seq (.opt (lays_typeParameters hr)) fun _ => .seq (lays_parameters hr) fun _ =>
    .eitherSeq (.bare (by simp)) (.opt (lays_before (lays_resultClause hr) (lays_resultClause hr)))
      fun _ => .weaken (.of_bare (by simp)) (lays_arrowRest hr _)

theorem lays_arrowWithName (front : List Node) : Lays front (arrowWithName r rule front) :=
  .seq (lays_name rfl) fun _ => .weaken (.of_bare (by simp)) (lays_arrowRest hr _)

theorem lays_methodRest (front : List Node) : Lays front (methodRest r front) :=
  .seq (lays_callSignature hr) fun _ => .seq (lays_block hr) fun _ => .branch (by simp)

omit hr in
theorem lays_classMemberEnd : Lays [] classMemberEnd :=
  .orElse (.seq (lays_symbol rfl) fun _ => .bare (by simp)) lays_semicolon

theorem lays_classMember {index : Reader Node} (hi : Lays [] index) :
    Lays [] (classMember r index) := by
  refine .seq (.many (lays_decorator hr)) fun decorators => .orElse ?block <| .orElse ?index ?named
  case block =>
    exact .seq (lays_keyword rfl) fun word => .seq (lays_block hr) fun body =>
      .inner .staticBlock decorators [word, body.withRole .body] (by simp) <| .bare (by simp)
  case index =>
    exact .seq (.many (lays_modifier rfl)) fun _ => .seq hi fun _ =>
      .seq lays_classMemberEnd fun _ => .bare (by simp)
  case named =>
    refine .seq (.many (lays_modifier rfl)) fun words => .seq (.opt (lays_symbol rfl)) fun star =>
      .seq (lays_propertyName hr) fun title =>
      .seq (.opt (.orElse (lays_symbol rfl) (lays_symbol rfl))) fun mark => .orElse ?_ <|
      .orElse ?_ ?_
    · exact .carry decorators (by simp) (lays_methodRest hr _) fun _ => .bare (by simp)
    · exact .seq (lays_callSignature hr) fun signature => .inner
        (if words.any (·.kind == .token "abstract") then .abstractMethodSignature
          else .methodSignature)
        decorators (words ++ star.toList ++ [title.withRole .name] ++ mark.toList ++ signature)
        ⟨by simp, by simp, by split <;> rfl, .inl (by split <;> rfl)⟩ <|
        .seq lays_classMemberEnd fun _ => .bare (by simp)
    · exact .seq (.opt (lays_typeClause hr)) fun type =>
        .seq (.optList (.seq (lays_symbol rfl) fun _ => .seq (hr _) fun _ =>
          .bare (by simp))) fun value =>
        .inner .fieldDefinition [] (decorators ++ (words ++ star.toList ++ [title.withRole .name] ++
          mark.toList) ++ type.toList ++ value) (by simp) <|
        .seq lays_classMemberEnd fun _ => .bare (by simp)

theorem lays_classBody {index : Reader Node} (hi : Lays [] index) : Lays [] (classBody r index) :=
  .seq (lays_symbol rfl) fun _ =>
    .seq (.many (.orElse (.seq (lays_symbol rfl) fun _ =>
      .bare (by simp)) (lays_classMember hr hi))) fun _ =>
    .seq (lays_symbol rfl) fun _ => .branch (by simp)

theorem lays_classHeritage : Lays [] (classHeritage r) :=
  .seq (.optList (.seq (lays_keyword rfl) fun _ => .seq (lays_commaList1 (hr _)) fun _ =>
    .seq (.opt (lays_typeArguments hr)) fun _ => .bare (by simp))) fun _ =>
  .seq (.optList (.seq (lays_keyword rfl) fun _ => .seq (lays_commaList1 (hr _)) fun _ =>
    .bare (by simp))) fun _ =>
  .ite (fun _ => .miss) fun some => .branch (by simpa using some)

theorem lays_classRest {kind : Kind} {index : Reader Node} (hi : Lays [] index)
    (proper : (kind == .comment) = false) (front : List Node) :
    Lays front (classRest kind r index front) :=
  .seq (lays_keyword rfl) fun _ => .seq (.opt (lays_nameBut rfl)) fun _ =>
    .seq (.opt (lays_typeParameters hr)) fun _ => .seq (.opt (lays_classHeritage hr)) fun _ =>
    .seq (lays_classBody hr hi) fun _ => .branch ⟨by simp, by simp, proper, .inr (by simp; omega)⟩

/-! ### Markup -/

omit hr in
theorem lays_markupName : Lays [] markupName := .toToken (lays_measured rfl rfl)

theorem lays_markupExpression : Lays [] (markupExpression r) :=
  .seq (lays_symbol rfl) fun _ =>
    .seq (.optList (.orElse
      (.seq (lays_symbol rfl) fun dots => .seq (hr _) fun value =>
        .inner .spreadElement [] [dots, value] (by simp) <| .bare (by simp))
      (.seq (hr _) fun _ => .bare (by simp)))) fun _ =>
    .seq (lays_symbol rfl) fun _ => .branch (by simp)

omit hr in
theorem lays_markupString : Lays [] markupString := by
  refine .toToken fun _ s => .look ?_
  split
  case h_1 ahead =>
    exact .ite (fun _ => .seq (.leaf rfl Nat.one_pos (by simp [ahead])) fun _ =>
      .seq (.opt (lays_measured rfl rfl)) fun _ => .seq lays_immediate fun _ =>
      .branch (by simp)) fun _ => .miss
  case h_2 => exact .miss

theorem lays_markupAttribute : Lays [] (markupAttribute r) :=
  .orElse (lays_markupExpression hr) <| .seq lays_markupName fun _ =>
    .seq (.optList (.seq (lays_symbol rfl) fun _ =>
      .seq (.orElse lays_markupString (.orElse (lays_markupExpression hr) (hr _))) fun _ =>
      .bare (by simp))) fun _ => .branch (by simp)

theorem lays_markupChild : Lays [] (markupChild r) := by
  refine .look fun _ => ?_
  split
  · exact lays_markupExpression hr
  · exact .miss
  · exact hr _
  · exact lays_measured rfl rfl

theorem lays_markupRest (opening : Node) : Lays [opening] (markupRest r opening) :=
  .seq (.many (lays_markupChild hr)) fun children => .seq lays_bracket fun start =>
    .seq lays_bracket fun slash => .seq (.opt lays_markupName) fun title =>
    .seq lays_bracket fun close =>
    .inner .markupClosing (opening :: children) ([start, slash] ++ title.toList ++ [close])
      (by simp) <| .branch (by simp)

theorem lays_markupRule : Lays [] (markupRule r) :=
  .seq lays_bracket fun start => .seq (.opt lays_markupName) fun title =>
    .seq (.opt (lays_typeArguments hr)) fun arguments =>
    .eitherSeq (.many (lays_markupAttribute hr)) (.bare (by simp)) fun attributes => .orElse
      (.seq lays_bracket fun _ => .seq lays_bracket fun _ => .branch (by simp))
      (.seq lays_bracket fun close => .inner .markupOpening []
        (start :: title.toList ++ arguments.toList ++ attributes ++ [close]) (by simp)
        (lays_markupRest hr _))

/-! ### Literals and primary expressions -/

theorem lays_objectMember : Lays [] (objectMember r) :=
  .orElse (.seq (lays_symbol rfl) fun _ => .seq (hr _) fun _ => .branch (by simp)) <|
  .orElse (.seq (lays_propertyName hr) fun _ => .seq (lays_symbol rfl) fun _ => .seq (hr _) fun _ =>
    .branch (by simp)) <|
  .orElse (.seq (.many (lays_modifier rfl)) fun _ => .seq (.opt (lays_symbol rfl)) fun _ =>
    .seq (lays_propertyName hr) fun _ => .weaken (.of_bare (by simp)) (lays_methodRest hr _)) <|
  .orElse (.seq (lays_name rfl) fun _ => .seq (lays_symbol rfl) fun _ => .seq (hr _) fun _ =>
    .branch (by simp))
    (lays_nameBut rfl)

theorem lays_objectLiteral : Lays [] (objectLiteral r) :=
  .seq (lays_symbol rfl) fun _ => .seq (lays_commaList (lays_objectMember hr)) fun _ =>
    .seq (lays_symbol rfl) fun _ => .branch (by simp)

theorem lays_element : Lays [] (element r) :=
  .orElse (.seq (lays_symbol rfl) fun _ => .seq (hr _) fun _ => .branch (by simp)) (hr _)

theorem lays_arrayLiteral : Lays [] (arrayLiteral r) :=
  .seq (lays_symbol rfl) fun _ =>
    .seq (.many (.orElse (lays_symbol rfl) (lays_element hr))) fun _ =>
    .seq (lays_symbol rfl) fun _ => .branch (by simp)

theorem lays_arguments : Lays [] (arguments r) :=
  .seq (lays_symbol rfl) fun _ => .seq (lays_commaList (lays_element hr)) fun _ =>
    .seq (lays_symbol rfl) fun _ => .role (.branch (by simp))

theorem lays_parenthesized : Lays [] (parenthesized r) :=
  .seq (lays_symbol rfl) fun _ => .seq (hr _) fun _ => .seq (.opt (lays_typeClause hr)) fun _ =>
    .seq (lays_symbol rfl) fun _ => .branch (by simp)

omit hr in
theorem lays_importExpression : Lays [] importExpression := by
  refine .seq (lays_keyword rfl) fun word => .look fun _ => ?_
  split
  · exact .pure (.withKind word .importCallee rfl rfl)
  · exact .seq (lays_symbol rfl) fun _ => .seq (lays_keyword rfl) fun _ => .branch (by simp)
  · exact .miss

theorem lays_classExpression : Lays [] (classExpression r) :=
  .seq (.many (lays_decorator hr)) fun _ =>
    .weaken (.of_bare (by simp)) (lays_classRest hr (lays_indexSignature hr) rfl _)

theorem lays_wordExpression : Lays [] (wordExpression r) := by
  refine .look fun _ => ?_
  split
  · exact lays_functionExpression hr
  · exact .orElse (lays_functionExpression hr) (lays_name rfl)
  · exact lays_classExpression hr
  case h_10 => exact lays_importExpression
  case h_11 => exact lays_nameBut rfl
  all_goals exact lays_name rfl

theorem lays_primary : Lays [] (primary r) := by
  refine .look fun _ => ?_
  split
  · exact .toToken .miss
  · exact .either (lays_parenthesized hr) <| .either (lays_arrayLiteral hr) <|
      .either (lays_objectLiteral hr) <| .either lays_string <|
      .either (lays_template (hr _) rfl) <|
      .either lays_number <| .either lays_regex <| .either (lays_classExpression hr) <|
      .either (.seq (lays_symbol rfl) fun _ => .seq (lays_name rfl) fun _ => .branch (by simp)) <|
      .either (.look fun _ => .either (hr _) (.toToken .miss)) (lays_wordExpression hr)

/-! ### Members and calls -/

omit hr in
theorem lays_memberName : Lays [] memberName :=
  .orElse (.seq (lays_symbol rfl) fun _ => .seq (lays_name rfl) fun _ => .role (.branch (by simp)))
    (.seq (lays_name rfl) fun _ => .bare (by simp))

theorem lays_indexed : Lays [] (indexed r) :=
  .seq (lays_symbol rfl) fun _ => .seq (hr _) fun _ => .seq (lays_symbol rfl) fun _ =>
    .bare (by simp)

theorem lays_memberStep (outer : Node) : Lays [outer] (memberStep r outer) := by
  refine .look fun _ => ?_
  split
  · exact .seq (lays_symbol rfl) fun _ => .seq lays_memberName fun _ => .branch (by simp)
  · exact .seq (lays_indexed hr) fun _ => .branch (by simp)
  · exact .miss

theorem lays_genericStep (outer : Node) : Lays [outer] (genericStep r outer) := by
  refine .seq (lays_typeArguments hr) fun _ => .look fun _ => ?_
  split
  · exact .seq (lays_arguments hr) fun _ => .branch (by simp)
  · exact .seq (lays_template (hr _) rfl) fun _ => .branch (by simp)
  · exact .look fun _ => .look fun _ => .look fun _ => .either (.branch (by simp)) .miss

theorem lays_optionalStep (outer : Node) : Lays [outer] (optionalStep r outer) :=
  .seq (lays_symbol rfl) fun mark =>
    .weaken (.append (.refl [outer]) (.withKind mark .optionalChain rfl rfl)) <| .orElse
      (.seq (.opt (lays_typeArguments hr)) fun _ => .seq (lays_arguments hr) fun _ =>
        .branch (by simp)) <|
    .orElse (.seq (lays_indexed hr) fun _ => .branch (by simp)) (.seq lays_memberName fun _ =>
      .branch (by simp))

theorem lays_operandStep (outer : Node) : Lays [outer] (operandStep r outer) := by
  refine .look fun _ => ?_
  split
  · exact .seq (lays_arguments hr) fun _ => .branch (by simp)
  · exact .seq (lays_template (hr _) rfl) fun _ => .branch (by simp)
  · exact lays_optionalStep hr outer
  · exact .look fun _ => .missIf <| .seq (lays_symbol rfl) fun _ => .branch (by simp)
  · exact lays_genericStep hr outer
  · exact lays_genericStep hr outer
  · exact lays_memberStep hr outer

theorem lays_newExpression : Lays [] (newExpression r) :=
  .seq (lays_keyword rfl) fun word => .look fun _ => .either
    (.seq (lays_symbol rfl) fun _ => .seq (lays_name rfl) fun _ => .branch (by simp)) <|
    .look fun _ => .eitherSeq (hr _) (lays_primary hr) fun first =>
      .carry [word] (by simp) (.extend (lays_memberStep hr) first) fun _ =>
      .seq (.opt (lays_typeArguments hr)) fun _ => .seq (.opt (lays_arguments hr)) fun _ =>
      .branch (by simp)

theorem lays_operandRule : Lays [] (operandRule r) :=
  .look fun _ => .eitherSeq (lays_newExpression hr) (lays_primary hr) fun first =>
    .extend (lays_operandStep hr) first

/-! ### Operators -/

theorem lays_front : Lays [] (front r) := by
  refine .look fun mark => .ite (fun h => ?_) fun _ => .ite (fun h => ?_) fun _ =>
    .look fun _ => .either (.seq (lays_typeArguments hr) fun _ => .bare (by simp)) <|
    .look fun word => .ite (fun h => ?_) fun _ => .ite (fun h => ?_) fun _ => .miss
  · exact .seq (lays_symbol (String.isEmpty_eq_false_iff.mpr (by rintro rfl; simp at h))) fun _ =>
      .bare (by simp)
  · exact .seq (lays_symbol (String.isEmpty_eq_false_iff.mpr (by rintro rfl; simp at h))) fun _ =>
      .bare (by simp)
  · exact .seq (lays_keyword (String.isEmpty_eq_false_iff.mpr (by rintro rfl; simp at h))) fun _ =>
      .bare (by simp)
  · exact .seq (lays_keyword (String.isEmpty_eq_false_iff.mpr (by rintro rfl; simp at h))) fun _ =>
      .bare (by simp)

omit hr in
theorem kind_of_front {kind : Kind} {p : Reader Node} {s s' : Input} {mark : Front}
    (h : (p >>= fun n => pure (kind, n)) s = (some mark, s')) : mark.1 = kind := by
  obtain ⟨_, _, _, h⟩ := bind_eq_some.mp h
  cases h
  rfl

omit hr in
theorem proper_of_front {s s' : Input} {mark : Front} (h : front r s = (some mark, s')) :
    (mark.1 == .comment) = false := by
  obtain ⟨token, _, _, h⟩ := bind_eq_some.mp h
  split at h
  · rw [kind_of_front h]; rfl
  split at h
  · rw [kind_of_front h]; rfl
  obtain ⟨dialect, _, _, h⟩ := bind_eq_some.mp h
  split at h
  · rw [kind_of_front h]; rfl
  obtain ⟨word, _, _, h⟩ := bind_eq_some.mp h
  split at h
  · rw [kind_of_front h]; rfl
  split at h
  · rw [kind_of_front h]; rfl
  · cases h

omit hr in
theorem fits_fronts (fronts : List Front) (operand : Node)
    (proper : ∀ mark ∈ fronts, (mark.1 == .comment) = false) :
    Node.Fits (HasNodes.nodes fronts ++ [operand])
      [fronts.foldr (fun (kind, mark) operand =>
        if kind == .typeAssertion then .branch kind [mark, operand.withRole .argument]
        else applyOperator (fun operand =>
          .branch kind [mark.withRole .operator, operand.withRole .argument]) operand)
        operand] := by
  induction fronts with
  | nil => exact .refl [operand]
  | cons front fronts ih =>
    obtain ⟨kind, mark⟩ := front
    obtain ⟨first, others⟩ := List.forall_mem_cons.mp proper
    rw [nodes_cons, List.append_assoc]
    refine (Node.Fits.append (.refl [mark]) (ih others)).trans ?_
    rw [List.foldr_cons]
    dsimp only
    split
    · exact .branch (.of_bare (by simp)) ⟨by simp, first, .inr (by simp)⟩
    · refine fits_applyOperator (fun n => ?_) _
      exact .branch (.of_bare (by simp)) ⟨by simp, first, .inr (by simp)⟩

theorem lays_unary : Lays [] (unary r) := by
  refine .seqOf (.many (lays_front hr)) fun fronts _ _ found =>
    .seq (lays_operandRule hr) fun operand => ?_
  have behind : Lays [operand] ((do
      if ← lineBreak then miss
      let mark ← symbol "++" <|> symbol "--"
      return Node.branch .updateExpression
        [operand.withRole .argument, mark.withRole .operator]) <|> pure operand) :=
    .orElse (.look fun _ => .missIf <| .seq (.orElse (lays_symbol rfl) (lays_symbol rfl)) fun _ =>
      .branch (by simp))
      (.bare (by simp))
  refine .carry (HasNodes.nodes fronts) (by simp) behind fun operand =>
    .pure (fits_fronts fronts operand fun mark mem => ?_)
  obtain ⟨_, _, read⟩ := many_yields found mem
  exact proper_of_front read

omit hr in
theorem isEmpty_of_precedence? {mark : String} {n : Nat} (h : precedence? mark = some n) :
    mark.isEmpty = false := by
  refine String.isEmpty_eq_false_iff.mpr ?_
  rintro rfl
  cases h

theorem lays_operatorLink {allowIn : Bool} : Lays [] (operatorLink r allowIn) := by
  refine .look fun word => .look fun mark => .ite (fun h => ?_) fun _ =>
    .ite (fun h => ?_) fun _ => ?_
  · exact .look fun _ => .missIf <|
      .seq (lays_keyword (String.isEmpty_eq_false_iff.mpr (by rintro rfl; simp at h))) fun _ =>
      .seq (.orElse (lays_keyword rfl) (hr _)) fun _ => .bare (by simp)
  · exact .seq (lays_keyword (String.isEmpty_eq_false_iff.mpr (by rintro rfl; simp at h))) fun _ =>
      .seq (lays_unary hr) fun _ => .bare (by simp)
  · split
    · exact .seq (lays_symbol (isEmpty_of_precedence? ‹_›)) fun _ =>
        .seq (lays_unary hr) fun _ => .bare (by simp)
    · exact .miss

omit hr in
theorem ascribes_of_operatorLink {allowIn : Bool} {s s' : Input} {link : Link}
    (h : operatorLink r allowIn s = (some link, s')) : Ascribes link := by
  obtain ⟨word, _, _, h⟩ := bind_eq_some.mp h
  obtain ⟨mark, _, _, h⟩ := bind_eq_some.mp h
  split at h
  · obtain ⟨newLine, _, _, h⟩ := bind_eq_some.mp h
    cases newLine
    · obtain ⟨_, _, _, h⟩ := bind_eq_some.mp h
      obtain ⟨_, _, _, h⟩ := bind_eq_some.mp h
      cases h
      exact ⟨List.cons_ne_nil _ _, by split <;> rfl⟩
    · obtain ⟨_, _, missed, _⟩ := bind_eq_some.mp h
      cases missed
  · split at h
    · obtain ⟨_, _, _, h⟩ := bind_eq_some.mp h
      obtain ⟨_, _, _, h⟩ := bind_eq_some.mp h
      cases h
      trivial
    · cases found : precedence? mark with
      | none =>
        rw [found] at h
        cases h
      | some precedence =>
        rw [found] at h
        obtain ⟨_, _, _, h⟩ := bind_eq_some.mp h
        obtain ⟨_, _, _, h⟩ := bind_eq_some.mp h
        cases h
        trivial

theorem lays_operation {allowIn : Bool} : Lays [] (operation r allowIn) := by
  refine .seq (lays_unary hr) fun first => .seqOf (.many (lays_operatorLink hr)) ?_
  intro links s s' found
  refine .pure (fits_group [] first links fun link hlink => ?_)
  obtain ⟨_, _, read⟩ := many_yields found hlink
  exact ascribes_of_operatorLink read

theorem lays_consequence : Lays [] (consequence r rule) :=
  .either (hr _) (lays_before (hr _) (hr _))

theorem lays_ternary : Lays [] (ternary r rule) :=
  .seq (lays_operation hr) fun _ => .orElse
    (.seq (lays_symbol rfl) fun _ => .seq (lays_consequence hr) fun _ =>
      .seq (lays_symbol rfl) fun _ => .seq (hr _) fun _ => .branch (by simp)) (.bare (by simp))

theorem lays_assignment : Lays [] (assignment r rule) := by
  refine .seq (lays_ternary hr) fun left => .look fun mark => .either ?_ <|
    .ite (fun h => ?_) fun _ => .bare (by simp)
  · exact .orElse (.weaken (fits_asPattern left) <| .seq (lays_symbol rfl) fun _ =>
      .seq (hr _) fun _ =>
      .branch (by simp)) (.bare (by simp))
  · have some : mark.isEmpty = false := by
      rw [String.isEmpty_eq_false_iff]
      rintro rfl
      simp [assignmentMarks] at h
    exact .orElse (.seq (lays_symbol some) fun _ => .seq (hr _) fun _ => .branch (by simp))
      (.bare (by simp))

theorem lays_yieldExpression : Lays [] (yieldExpression r rule) :=
  .seq (lays_keyword rfl) fun _ => .seq (.opt (lays_symbol rfl)) fun _ => .look fun _ =>
    .eitherSeq (.bare (by simp)) (.opt (hr _)) fun _ => .branch (by simp)

theorem lays_arrowFunction : Lays [] (arrowFunction r rule) := by
  refine .seq (.opt (.seq lays_asyncWord fun _ => .look fun _ => .look fun _ =>
    .either (.bare (by simp)) .miss)) fun async => .look fun _ =>
    .weaken (.of_bare (by simp) : Node.Fits _ async.toList) ?_
  split
  · exact .look fun _ => .either (lays_arrowWithParameters hr _) (.toToken .miss)
  · exact lays_arrowWithParameters hr _
  · exact .look fun _ => .either (.toToken .miss) (lays_arrowWithName hr _)

/-- Expressions are laid out when what is nested in them is. -/
theorem lays_expressionRule : Lays [] (expressionRule r rule) :=
  .look fun _ => .look fun _ => .either (.orElse (lays_assignment hr) (lays_arrowFunction hr)) <|
    .look fun _ => .either (.orElse (lays_yieldExpression hr) (lays_assignment hr))
      (.orElse (lays_arrowFunction hr) (lays_assignment hr))

theorem lays_sequenceRule : Lays [] (sequenceRule r) := by
  refine .seqOf (lays_commaList1 (hr _)) fun parts _ _ found => ?_
  split
  · exact .bare (by simp)
  · exact .branch (by simpa using ne_nil_of_commaList1 found)

end ParamSchema.Parse.Reader
