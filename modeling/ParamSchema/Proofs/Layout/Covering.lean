import ParamSchema.Proofs.Layout.File
import ParamSchema.Proofs.Shape.Genuine

/-!
Nodes cover their parts. A node of a parsed file reaches from its first part to its last, and
weaving comments between the parts does not change what they cover; only the comments are placed by
the weaving itself. So each part that is not such a comment lies inside the node around it
(`Node.Covers`), at every site of a parsed file but the root (`Site.covers`).
-/

namespace ParamSchema

namespace Node

/-- A comment that plays no role in the node around it. -/
def isAside (n : Node) : Bool := n.isComment && n.role.isNone

theorem isAside_of_child? {n m : Node} {role : Role} (h : n.child? role = some m) :
    m.isAside = false := by
  have plays : (m.role == some role) = true :=
    List.find?_some (p := fun m : Node => m.role == some role) h
  simp [isAside, eq_of_beq plays]

/-- The parts of a node and of all nodes below it lie inside it, comments apart. -/
inductive Covers : Node → Prop where
  | mk {n : Node} :
      (∀ m ∈ n.children, m.isAside = false → n.start ≤ m.start ∧ m.stop ≤ n.stop) →
      (∀ m ∈ n.children, m.Covers) → n.Covers

theorem Covers.bounds {n m : Node} (h : n.Covers) (part : m ∈ n.children)
    (proper : m.isAside = false) : n.start ≤ m.start ∧ m.stop ≤ n.stop := by
  cases h with
  | mk bounds _ => exact bounds m part proper

theorem Covers.part {n m : Node} (h : n.Covers) (part : m ∈ n.children) : m.Covers := by
  cases h with
  | mk _ parts => exact parts m part

theorem covers_of_no_children {n : Node} (h : n.children = []) : n.Covers := by
  refine .mk ?_ ?_
  all_goals
    intro m mem
    rw [h] at mem
    cases mem

mutual

theorem Nested.covers {gaps : Gaps} : (n : Node) → n.Nested gaps → n.Covers
  | .mk kind role start stop line children, h => by
    obtain ⟨_, none | inside, _⟩ := nested_iff.mp h
    · exact covers_of_no_children none
    · have parts := Between.covers start stop children inside
      exact .mk (fun m mem _ => ⟨(parts m mem).1, (parts m mem).2.1⟩)
        fun m mem => (parts m mem).2.2

theorem Between.covers {gaps : Gaps} : (a b : Nat) → (ns : List Node) → Between gaps a b ns →
    ∀ m ∈ ns, a ≤ m.start ∧ m.stop ≤ b ∧ m.Covers
  | _, _, [], _ => nofun
  | a, b, n :: ns, h => by
    obtain ⟨free, nested, behind⟩ := between_cons.mp h
    have before := gaps.le free
    have first := Nested.covers n nested
    intro m mem
    rcases List.mem_cons.mp mem with rfl | mem
    · exact ⟨before, behind.le, first⟩
    · obtain ⟨left, right, covers⟩ := Between.covers n.stop b ns behind m mem
      exact ⟨(before.trans nested.start_lt_stop.le).trans left, right, covers⟩

end

end Node

namespace Parse

open Node (Covers)

theorem asides_commentsUpTo (limit : Nat) (place : Between) (s : Input) (cs : List Char) :
    ∀ n ∈ (commentsUpTo limit place s cs).1, n.isAside = true ∧ n.children = [] := by
  have aside (start stop : Input) : (commentNode start stop).isAside = true ∧
      (commentNode start stop).children = [] := ⟨rfl, rfl⟩
  fun_induction commentsUpTo limit place s cs <;> simp_all

mutual

/-- Weaving comments into a node leaves what it covers. -/
theorem covers_weave : (s : Input) → (n : Node) → n.Covers →
    (weave s n).1.Covers ∧ (weave s n).1.start = n.start ∧ (weave s n).1.stop = n.stop ∧
      (weave s n).1.isAside = n.isAside
  | s, .mk kind role start stop line children, h => by
    have parts := covers_weaveParts s children fun n mem => h.part mem
    refine ⟨.mk ?_ fun m mem => (parts m mem).1, rfl, rfl, rfl⟩
    intro m mem proper
    obtain ⟨-, aside | ⟨n, part, left, right, same⟩⟩ := parts m mem
    · rw [aside] at proper
      cases proper
    · have bounds := h.bounds part (same ▸ proper)
      exact ⟨left ▸ bounds.1, right ▸ bounds.2⟩

theorem covers_weaveParts : (s : Input) → (ns : List Node) → (∀ n ∈ ns, n.Covers) →
    ∀ m ∈ (weaveParts s ns).1, m.Covers ∧ (m.isAside = true ∨
      ∃ n ∈ ns, m.start = n.start ∧ m.stop = n.stop ∧ m.isAside = n.isAside)
  | _, [], _ => nofun
  | s, n :: ns, h => by
    have comments := asides_commentsUpTo n.start .blank s s.rest
    obtain ⟨covers, same⟩ :=
      covers_weave (commentsUpTo n.start .blank s s.rest).2 n (h n List.mem_cons_self)
    have rest := covers_weaveParts (weave (commentsUpTo n.start .blank s s.rest).2 n).2 ns
      fun k mem => h k (List.mem_cons_of_mem n mem)
    intro m mem
    rw [weaveParts] at mem
    rcases List.mem_append.mp mem with mem | mem
    · obtain ⟨aside, none⟩ := comments m mem
      exact ⟨Node.covers_of_no_children none, .inl aside⟩
    · rcases List.mem_cons.mp mem with rfl | mem
      · exact ⟨covers, .inr ⟨n, List.mem_cons_self, same⟩⟩
      · obtain ⟨covers, aside | ⟨k, part, same⟩⟩ := rest m mem
        · exact ⟨covers, .inl aside⟩
        · exact ⟨covers, .inr ⟨k, List.mem_cons_of_mem n part, same⟩⟩

end

theorem covers_weaveFile {s : Input} {ns : List Node} (h : ∀ n ∈ ns, n.Covers) :
    ∀ m ∈ weaveFile s ns, m.Covers := by
  intro m mem
  rw [weaveFile] at mem
  rcases List.mem_append.mp mem with mem | mem
  · exact (covers_weaveParts s ns h m mem).1
  · exact Node.covers_of_no_children (asides_commentsUpTo _ _ _ _ m mem).2

/-- The parts of the tree of a text cover their parts. -/
theorem covers_file (dialect : Dialect) (chars : List Char) :
    ∀ n ∈ (file dialect chars).children, n.Covers := by
  rw [file, Node.children]
  apply covers_weaveFile
  rcases h : fileParts (rules (depthFor chars.length)) (lastLine chars)
    (Input.ofChars dialect chars) with ⟨_ | ns, s'⟩
  · intro n mem
    cases mem
  · have lies := Reader.between_fileParts (Reader.lays_rules _) (Input.at_ofChars dialect chars) h
    exact fun n mem => (Node.Between.covers _ _ _ lies n mem).2.2

end Parse

/-- A file whose tree is read from its text. -/
def SourceFile.IsParsed (file : SourceFile) : Prop := ∃ chars, file = ofChars file.path chars

theorem Place.covers {root p : Place} (h : Within root p)
    (parts : ∀ n ∈ root.node.children, n.Covers) : p = root ∨ p.node.Covers := by
  induction h with
  | root => exact .inl rfl
  | @part parent before n rest _ children ih =>
    have mem : n ∈ parent.node.children := by
      rw [children]
      exact List.mem_append_right _ List.mem_cons_self
    rcases ih with rfl | covers
    · exact .inr (parts n mem)
    · exact .inr (covers.part mem)

namespace Site

/-- A part of a site that is not just a comment between its parts. -/
structure IsPart (s t : Site) : Prop where
  file : t.file = s.file
  mem : t.node ∈ s.node.children
  proper : t.node.isAside = false

theorem isPart_of_child? {s t : Site} {role : Role} (h : s.child? role = some t) :
    s.IsPart t := by
  obtain ⟨place, found, rfl⟩ := Option.map_eq_some_iff.mp h
  have node := s.place.map_node_child? role
  rw [found, Option.map_some] at node
  exact ⟨rfl, List.mem_of_find?_eq_some node.symm, Node.isAside_of_child? node.symm⟩

theorem isPart_of_proper {s t : Site} (h : s.proper.head? = some t) : s.IsPart t := by
  obtain ⟨place, mem, rfl⟩ := List.mem_map.mp (List.mem_of_head? h)
  obtain ⟨named, proper⟩ := List.mem_filter.mp mem
  obtain ⟨_, n, _, children, rfl⟩ := Place.mem_partsFrom (Place.mem_parts_of_named named)
  rw [Bool.not_eq_true'] at proper
  have plain : n.isComment = false := proper
  exact ⟨rfl, children ▸ List.mem_append_right _ List.mem_cons_self,
    by simp [node, Place.node, Node.isAside, plain]⟩

/-- In a parsed file a node covers its parts, unless it is the root. -/
theorem covers {s : Site} (h : s.Of SourceFile.IsParsed) (inner : s.node.kind ≠ .program) :
    s.node.Covers := by
  obtain ⟨⟨chars, parsed⟩, within⟩ := h
  have tree : s.file.tree = Parse.file (SourceFile.dialectOf s.file.path) chars := by
    rw [parsed]
    rfl
  have parts : ∀ n ∈ s.file.root.node.children, n.Covers := by
    show ∀ n ∈ s.file.tree.children, n.Covers
    rw [tree]
    exact Parse.covers_file _ chars
  rcases Place.covers within parts with root | covers
  · refine absurd ?_ inner
    show s.place.node.kind = .program
    rw [root]
    show s.file.tree.kind = .program
    rw [tree]
    rfl
  · exact covers

end Site

end ParamSchema
