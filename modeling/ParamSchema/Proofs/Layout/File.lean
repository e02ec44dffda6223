import ParamSchema.Parse.File
import ParamSchema.Proofs.Layout.Statements

/-!
The trees of files. The grammar lays out what it reads at every depth of nesting
(`Reader.lays_rules`), so the parts of a file fill its text up to gaps (`Reader.between_fileParts`).
Comments, which are put between the parts afterwards, carry no marks. So in the tree of any text no
mark stands twice (`nodup_marks_file`).
-/

namespace ParamSchema

namespace Node

theorem marks_append (ns ms : List Node) : marks (ns ++ ms) = marks ns ++ marks ms := by
  induction ns with
  | nil => simp [marks, preorders]
  | cons n ns ih => simp only [List.cons_append, marks_cons, ih, List.append_assoc]

/-- A node without parts that is of none of the sorts that are identified by what they cover. -/
def Unmarked (n : Node) : Prop := n.kind.tag? = none ∧ n.children = []

theorem marks_of_unmarked {ns : List Node} (h : ∀ n ∈ ns, n.Unmarked) : marks ns = [] := by
  induction ns with
  | nil => rfl
  | cons n ns ih =>
    obtain ⟨tag, none⟩ := h n List.mem_cons_self
    have rest := ih fun m hm => h m (List.mem_cons_of_mem _ hm)
    rw [marks_cons, none, rest, mark?, tag]
    rfl

end Node

namespace Parse

open Node (marks)
open Utf8 (widths)

/-! ### Going to an offset -/

namespace Input

variable {text : List Char} {s : Input} {limit : Nat}

theorem At.upTo (hs : s.At text) {cs : List Char} (ahead : s.rest = cs) :
    (s.upTo limit cs).At text := by
  induction cs generalizing s with
  | nil => exact hs
  | cons c cs ih =>
    rw [Input.upTo]
    split
    · exact hs
    · exact ih (hs.pass ahead) rfl

theorem At.offset_of_rest_nil (hs : s.At text) (finished : s.rest = []) :
    s.offset = widths text := by
  obtain ⟨⟨front, split, offset⟩, -⟩ := hs
  rw [split, finished, List.append_nil, offset]

theorem At.offset_lt (hs : s.At text) (left : s.rest ≠ []) : s.offset < widths text := by
  obtain ⟨⟨front, split, offset⟩, -⟩ := hs
  obtain ⟨c, rest, ahead⟩ := List.exists_cons_of_ne_nil left
  have := Utf8.width_pos c
  rw [split, ahead, offset, Utf8.widths_append, Utf8.widths_cons]
  omega

theorem offset_upTo_of_far (hs : s.At text) {cs : List Char} (ahead : s.rest = cs)
    (far : widths text ≤ limit) : (s.upTo limit cs).offset = widths text := by
  induction cs generalizing s with
  | nil => exact hs.offset_of_rest_nil ahead
  | cons c cs ih =>
    have inside := hs.offset_lt (by simp [ahead])
    rw [Input.upTo, if_neg (by omega)]
    exact ih (hs.pass ahead) rfl

/-- Four bytes for each character go to the end of a text. -/
theorem At.offset_upTo_end (hs : s.At text) :
    (s.upTo (s.offset + 4 * s.bound) s.rest).offset = widths text := by
  have wide := Utf8.widths_le text
  have bound := hs.2
  exact offset_upTo_of_far hs rfl (by omega)

end Input

/-! ### Comments -/

theorem unmarked_commentNode (start stop : Input) : (commentNode start stop).Unmarked := ⟨rfl, rfl⟩

theorem unmarked_commentsUpTo (limit : Nat) (place : Between) (s : Input) (cs : List Char) :
    ∀ n ∈ (commentsUpTo limit place s cs).1, n.Unmarked := by
  fun_induction commentsUpTo limit place s cs <;> simp_all [unmarked_commentNode]

mutual

theorem marks_weave : (s : Input) → (n : Node) →
    (weave s n).1.mark? = n.mark? ∧ marks (weave s n).1.children = marks n.children
  | s, .mk _ _ _ _ _ children => ⟨rfl, marks_weaveParts s children⟩

theorem marks_weaveParts : (s : Input) → (ns : List Node) → marks (weaveParts s ns).1 = marks ns
  | _, [] => rfl
  | s, n :: ns => by
    have comments := Node.marks_of_unmarked (unmarked_commentsUpTo n.start .blank s s.rest)
    have first := marks_weave (commentsUpTo n.start .blank s s.rest).2 n
    have rest := marks_weaveParts (weave (commentsUpTo n.start .blank s s.rest).2 n).2 ns
    rw [weaveParts, Node.marks_append, comments, Node.marks_cons, Node.marks_cons, first.1, first.2,
      rest, List.nil_append]

end

theorem marks_weaveFile (s : Input) (ns : List Node) : marks (weaveFile s ns) = marks ns := by
  rw [weaveFile, Node.marks_append, marks_weaveParts,
    Node.marks_of_unmarked (unmarked_commentsUpTo _ _ _ _), List.append_nil]

/-! ### The grammar at every depth -/

namespace Reader

theorem lays_rules (depth : Nat) (rule : Rule) : Lays [] (rules depth rule) := by
  induction depth generalizing rule with
  | zero => exact .miss
  | succ depth ih =>
    cases rule with
    | expression | headExpression | untypedExpression => exact lays_expressionRule ih
    | sequence => exact lays_sequenceRule ih
    | operand => exact lays_operandRule ih
    | type | arrowlessType => exact lays_typeRule ih
    | pattern => exact lays_patternRule ih
    | statement => exact lays_statementRule ih
    | markup => exact lays_markupRule ih

theorem lays_hashBang : Lays [] hashBang := by
  refine .look fun _ => ?_
  split
  · exact lays_measured rfl rfl
  · exact .miss

/-- The parts of a file, with what could not be read, fill its text up to gaps. -/
theorem between_fileParts {r : Rules} (hr : ∀ rule, Lays [] (r rule)) {line : Nat}
    {text : List Char} {s s' : Input} {ns : List Node} (hs : s.At text)
    (h : fileParts r line s = (some ns, s')) :
    Node.Between (gaps text) s.offset (widths text) ns := by
  obtain ⟨first, t, readFirst, h⟩ := bind_eq_some.mp h
  obtain ⟨statements, t', readRest, h⟩ := bind_eq_some.mp h
  cases h
  obtain ⟨ht, liesFirst⟩ := Lays.opt lays_hashBang text s hs (Node.between_refl _) readFirst
  obtain ⟨ht', liesRest⟩ := Lays.many (hr _) text t ht (Node.between_refl _) readRest
  rw [nodes_option] at liesFirst
  rw [nodes_nodes] at liesRest
  obtain ⟨reached, free⟩ := Input.free_toToken ht'
  have lies := (liesFirst.append liesRest).mono ((gaps text).refl _) free
  refine lies.append ?_
  dsimp only
  split
  case isTrue finished =>
    rw [reached.offset_of_rest_nil (List.isEmpty_iff.mp finished)]
    exact Node.between_refl _
  case isFalse left =>
    -- What is left is one node, which reaches to the end of the text.
    have some : t'.toToken.rest ≠ [] := mt List.isEmpty_iff.mpr left
    have reads := reached.offset_upTo_end
    refine Node.Between.singleton_iff.mpr ⟨(gaps text).refl _, Node.nested_iff.mpr ⟨⟨?_, ?_⟩,
      .inl rfl, rfl, .inl rfl⟩, ?_⟩
    · exact (reached.offset_lt some).trans_eq reads.symm
    · exact (reached.upTo rfl).place
    · rw [Node.stop, reads]
      exact (gaps text).refl _

end Reader

/-- In the tree of a text no two intersections, no two interfaces and no two references cover the
same bytes. -/
theorem nodup_marks_file (dialect : Dialect) (chars : List Char) :
    ((file dialect chars).preorder.filterMap Node.mark?).Nodup := by
  have parts : (file dialect chars).preorder.filterMap Node.mark? =
      marks (file dialect chars).children := by
    rw [file, Node.preorder, List.filterMap_cons_none rfl]
    rfl
  rw [parts, file, Node.children, marks_weaveFile]
  generalize hs : Input.ofChars dialect chars = s
  rcases h : fileParts (rules (depthFor chars.length)) (lastLine chars) s with ⟨_ | ns, s'⟩
  · exact List.nodup_nil
  · have hs' : s.At chars := hs ▸ Input.at_ofChars dialect chars
    exact Node.Between.nodup_marks _ _ _ (Reader.between_fileParts (Reader.lays_rules _) hs' h)

end Parse

end ParamSchema
