import Mathlib.Data.List.Basic
import Mathlib.Data.Nat.Basic
import Mathlib.Order.Basic
import ParamSchema.Program.Lookup
import ParamSchema.Shape.Basic

/-!
Places of a tree. A place is within a tree when each step of the way to it goes to a part of the
node before (`Place.Within`); these are the places that a walk through the tree passes
(`Place.mem_walk_iff`), and the sites of a file are at them (`SourceFile.mem_sites_iff`). Parts of
places within a tree and the places around them are within it, and so are the places at which names
are declared.
-/

namespace ParamSchema

namespace Node

theorem size_eq (n : Node) : n.size = sizes n.children + 1 := by
  cases n
  rw [size]
  rfl

theorem sizes_append (ns ms : List Node) : sizes (ns ++ ms) = sizes ns + sizes ms := by
  induction ns with
  | nil => simp [sizes]
  | cons n ns ih => rw [List.cons_append, sizes, ih, sizes, Nat.add_assoc]

mutual

theorem length_preorder : (n : Node) → n.preorder.length = n.size
  | .mk _ _ _ _ _ children => by
    rw [preorder, List.length_cons, length_preorders children, size]

theorem length_preorders : (ns : List Node) → (preorders ns).length = sizes ns
  | [] => rfl
  | n :: ns => by
    rw [preorders, List.length_append, length_preorder n, length_preorders ns, sizes]

end

end Node

namespace Place

/-- The way to a place leads from the root along parts. -/
inductive Within (root : Place) : Place → Prop where
  | root : Within root root
  | part {parent : Place} {before : List Node} {n : Node} {rest : List Node} :
      Within root parent → parent.node.children = before.reverse ++ n :: rest →
      Within root (.part parent before n)

/-! ### Walks -/

mutual

theorem within_of_mem_walkFrom {root q : Place} : (p : Place) → (n : Node) → p.node = n →
    Within root p → q ∈ walkFrom p n → Within root q
  | p, .mk _ _ _ _ _ children, hn, hp, hq => by
    rw [walkFrom] at hq
    rcases List.mem_cons.mp hq with rfl | hq
    · exact hp
    · refine within_of_mem_walkParts p [] children hp ?_ hq
      rw [hn]
      rfl

theorem within_of_mem_walkParts {root q : Place} : (parent : Place) → (before ns : List Node) →
    Within root parent → parent.node.children = before.reverse ++ ns →
    q ∈ walkParts parent before ns → Within root q
  | _, _, [], _, _, hq => by cases hq
  | parent, before, n :: ns, hp, children, hq => by
    rw [walkParts] at hq
    rcases List.mem_append.mp hq with hq | hq
    · exact within_of_mem_walkFrom (.part parent before n) n rfl (.part hp children) hq
    · refine within_of_mem_walkParts parent (n :: before) ns hp ?_ hq
      rw [children, List.reverse_cons, List.append_assoc]
      rfl

end

theorem mem_walkFrom_self (p : Place) (n : Node) : p ∈ walkFrom p n := by
  cases n
  rw [walkFrom]
  exact List.mem_cons_self

theorem part_mem_walkParts {parent : Place} {before rest : List Node} {n : Node}
    (front : List Node) :
    .part parent (front.reverse ++ before) n ∈ walkParts parent before (front ++ n :: rest) := by
  induction front generalizing before with
  | nil => exact List.mem_append_left _ (mem_walkFrom_self _ _)
  | cons m front ih =>
    rw [List.reverse_cons, List.append_assoc]
    exact List.mem_append_right _ ih

mutual

theorem part_mem_walkFrom {q : Place} {before rest : List Node} {c : Node}
    (children : q.node.children = before.reverse ++ c :: rest) : (p : Place) → (n : Node) →
    p.node = n → q ∈ walkFrom p n → .part q before c ∈ walkFrom p n
  | p, .mk _ _ _ _ _ ns, hn, hq => by
    rw [walkFrom] at hq ⊢
    rcases List.mem_cons.mp hq with rfl | hq
    · rw [hn] at children
      have parts : ns = before.reverse ++ c :: rest := children
      have found : .part q (before.reverse.reverse ++ []) c ∈
          walkParts q [] (before.reverse ++ c :: rest) := part_mem_walkParts before.reverse
      rw [List.reverse_reverse, List.append_nil, ← parts] at found
      exact List.mem_cons_of_mem _ found
    · exact List.mem_cons_of_mem _ (part_mem_walkParts_of_mem children p [] ns hq)

theorem part_mem_walkParts_of_mem {q : Place} {before rest : List Node} {c : Node}
    (children : q.node.children = before.reverse ++ c :: rest) : (parent : Place) →
    (front ns : List Node) → q ∈ walkParts parent front ns →
    .part q before c ∈ walkParts parent front ns
  | _, _, [], hq => by cases hq
  | parent, front, n :: ns, hq => by
    rw [walkParts] at hq ⊢
    rcases List.mem_append.mp hq with hq | hq
    · exact List.mem_append_left _
        (part_mem_walkFrom children (.part parent front n) n rfl hq)
    · exact List.mem_append_right _ (part_mem_walkParts_of_mem children parent (n :: front) ns hq)

end

/-- A walk passes exactly the places within a tree. -/
theorem mem_walk_iff {root q : Place} : q ∈ root.walk ↔ Within root q := by
  constructor
  · exact within_of_mem_walkFrom root root.node rfl .root
  · intro h
    induction h with
    | root => exact mem_walkFrom_self root root.node
    | part _ children ih => exact part_mem_walkFrom children root root.node rfl ih

/-! ### Parts and surroundings -/

variable {root p q : Place}

theorem mem_partsFrom {parent : Place} {before ns : List Node}
    (h : q ∈ partsFrom parent before ns) :
    ∃ front n rest, ns = front ++ n :: rest ∧ q = .part parent (front.reverse ++ before) n := by
  induction ns generalizing before with
  | nil => cases h
  | cons m ns ih =>
    rcases List.mem_cons.mp h with rfl | h
    · exact ⟨[], m, ns, rfl, rfl⟩
    · obtain ⟨front, n, rest, rfl, rfl⟩ := ih h
      exact ⟨m :: front, n, rest, rfl, by rw [List.reverse_cons, List.append_assoc]; rfl⟩

theorem parent?_of_mem_parts (h : q ∈ p.parts) : q.parent? = some p := by
  obtain ⟨_, _, _, _, rfl⟩ := mem_partsFrom h
  rfl

theorem within_of_mem_parts (hp : Within root p) (h : q ∈ p.parts) : Within root q := by
  obtain ⟨front, n, rest, children, rfl⟩ := mem_partsFrom h
  exact .part hp (by rw [children, List.append_nil, List.reverse_reverse])

theorem mem_parts_of_named (h : q ∈ p.named) : q ∈ p.parts := List.mem_of_mem_filter h

theorem mem_parts_of_child? {role : Role} (h : p.child? role = some q) : q ∈ p.parts :=
  List.mem_of_find?_eq_some h

theorem map_node_partsFrom (parent : Place) (before ns : List Node) :
    (partsFrom parent before ns).map node = ns := by
  induction ns generalizing before with
  | nil => rfl
  | cons n ns ih => rw [partsFrom, List.map_cons, ih]; rfl

theorem map_node_child? (p : Place) (role : Role) :
    (p.child? role).map node = p.node.child? role := by
  unfold Place.child? Node.child? parts
  conv_rhs => rw [← map_node_partsFrom p [] p.node.children, List.find?_map]
  rfl

theorem within_of_mem_around (hp : Within root p) (base : root.around = []) (h : q ∈ p.around) :
    Within root q := by
  induction hp with
  | root =>
    rw [base] at h
    cases h
  | @part parent _ _ _ within _ ih =>
    rcases List.mem_cons.mp h with rfl | h
    · exact within
    · exact ih h

/-! ### Sizes -/

theorem size_le_root (h : Within root q) : q.node.size ≤ root.node.size := by
  induction h with
  | root => exact le_rfl
  | @part parent before n rest _ children ih =>
    have inside : n.size ≤ Node.sizes parent.node.children := by
      rw [children, Node.sizes_append, Node.sizes]
      omega
    have whole := Node.size_eq parent.node
    exact (by omega : n.size ≤ parent.node.size).trans ih

theorem root_le_extent {n : Node} (h : Within (.root n) q) : n.size ≤ q.extent := by
  induction h with
  | root => exact le_rfl
  | part _ _ ih => exact ih.trans (Nat.le_add_left _ _)

/-! ### Declarations -/

/-- The scope of a declaration, which may be exported. -/
def scope? (p : Place) : Option Place :=
  p.parent?.bind fun q => if q.kind == .exportStatement then q.parent? else some q

theorem declaration_mem (q : Place) : q.declaration = q ∨ q.declaration ∈ q.parts := by
  rw [declaration]
  split
  · cases found : q.child? .declaration with
    | none => exact .inl rfl
    | some d => exact .inr (mem_parts_of_child? found)
  · exact .inl rfl

theorem within_declaration (hp : Within root p) (h : q ∈ p.parts) : Within root q.declaration := by
  have hq := within_of_mem_parts hp h
  rcases declaration_mem q with same | inside
  · rwa [same]
  · exact within_of_mem_parts hq inside

theorem scope?_declaration (scope : p.isScope = true) (h : q ∈ p.parts) :
    q.declaration.scope? = some p := by
  have plain : (p.kind == .exportStatement) = false := by
    simp only [isScope, Bool.or_eq_true, beq_iff_eq] at scope
    rcases scope with kind | kind <;> rw [kind] <;> rfl
  have direct : q.scope? = some p := by
    rw [scope?, parent?_of_mem_parts h, Option.bind_some, plain]
    rfl
  rw [declaration]
  split
  · next exported =>
    cases found : q.child? .declaration with
    | none => exact direct
    | some d =>
      rw [Option.getD_some, scope?, parent?_of_mem_parts (mem_parts_of_child? found),
        Option.bind_some, if_pos exported]
      exact parent?_of_mem_parts h
  · exact direct

end Place

namespace SourceFile

/-- The sites of a file are at the places within its tree. -/
theorem mem_sites_iff {file : SourceFile} {p : Site → Bool} {s : Site} :
    s ∈ file.sites p ↔ s.file = file ∧ Place.Within file.root s.place ∧ p s = true := by
  unfold sites
  rw [List.mem_filter, List.mem_map]
  constructor
  · rintro ⟨⟨place, walked, rfl⟩, known⟩
    exact ⟨rfl, Place.mem_walk_iff.mp walked, known⟩
  · rintro ⟨rfl, within, known⟩
    exact ⟨⟨s.place, Place.mem_walk_iff.mpr within, rfl⟩, known⟩

/-- A declaration of a type is written in its scope, under its name. -/
theorem mem_declarationsIn {file : SourceFile} {name : Text} {scope : Place} {d : Site}
    (h : d ∈ file.declarationsIn .type name scope) :
    d.file = file ∧ (∃ q ∈ scope.parts, d.place = q.declaration) ∧
      file.textOf? (d.node.child? .name) = name := by
  obtain ⟨p, hp, rfl⟩ := List.mem_map.mp h
  obtain ⟨hp, named⟩ := List.mem_filter.mp hp
  obtain ⟨q, hq, hp⟩ := List.mem_flatMap.mp hp
  obtain ⟨part, hpart, rfl⟩ := List.mem_map.mp hq
  have same : p = part.declaration := by
    unfold SourceFile.declarators at hp
    split at hp <;> simp_all
  exact ⟨rfl, ⟨part, Place.mem_parts_of_named hpart, same⟩, eq_of_beq named⟩

end SourceFile

end ParamSchema
