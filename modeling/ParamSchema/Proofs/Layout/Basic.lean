import Mathlib.Data.List.Nodup
import Mathlib.Data.Nat.Basic
import Mathlib.Order.Basic
import ParamSchema.Tree.Place

/-!
The layout of syntax trees. In a tree that is laid out, every node covers something, and its parts
lie inside it one behind the other. Types are identified by what the node of their declaration
covers (`Node.marks`), so it matters that such a node and a node of the same sort inside it never
cover the same bytes: a node of one of these sorts does not have just one part.
Then no mark stands twice in a tree (`Node.Between.nodup_marks`), and a mark tells its place
(`Place.eq_of_mark`).
-/

namespace ParamSchema

/-- The sort of a type that nodes of a kind declare, for those that are identified by what the node
covers: intersections, interfaces and references. -/
@[simp] def Kind.tag? : Kind → Option Nat
  | .intersectionType => some 0
  | .interfaceDeclaration => some 1
  | .typeIdentifier | .nestedTypeIdentifier | .genericType => some 2
  | _ => none

/-- Nodes that a node of a kind may be made of: there are some, and more than one where nodes of
the kind are identified by what they cover; a comment has no parts. -/
@[simp] def Kind.Joins (kind : Kind) (parts : List Node) : Prop :=
  parts ≠ [] ∧ (kind == .comment) = false ∧ (kind.tag? = none ∨ parts.length ≠ 1)

/-- Where nodes may end, and what may lie between two nodes that follow each other: nothing, or one
such thing behind the other. -/
structure Gaps where
  Place : Nat → Prop
  Free : Nat → Nat → Prop
  refl (a : Nat) : Free a a
  trans {a b c : Nat} : Free a b → Free b c → Free a c
  le {a b : Nat} : Free a b → a ≤ b

namespace Node

mutual

/-- A node covers something and is no comment, its parts lie in order inside it, and it is not of
one of the sorts that are identified by what they cover when it has just one part. -/
def Nested (gaps : Gaps) : Node → Prop
  | .mk kind _ start stop _ children =>
    (start < stop ∧ gaps.Place stop) ∧ (children = [] ∨ Between gaps start stop children) ∧
      (kind == .comment) = false ∧ (kind.tag? = none ∨ children.length ≠ 1)

/-- Nodes lie one behind the other between two offsets, with nothing but gaps between them. -/
def Between (gaps : Gaps) : Nat → Nat → List Node → Prop
  | a, b, [] => gaps.Free a b
  | a, b, n :: ns => gaps.Free a n.start ∧ Nested gaps n ∧ Between gaps n.stop b ns

end

section

variable {gaps : Gaps}

theorem nested_iff {n : Node} :
    n.Nested gaps ↔ (n.start < n.stop ∧ gaps.Place n.stop) ∧
      (n.children = [] ∨ Between gaps n.start n.stop n.children) ∧
      n.isComment = false ∧ (n.kind.tag? = none ∨ n.children.length ≠ 1) := by
  cases n
  rw [Nested]
  rfl

theorem Nested.start_lt_stop {n : Node} (h : n.Nested gaps) : n.start < n.stop :=
  (nested_iff.mp h).1.1

theorem between_nil {a b : Nat} : Between gaps a b [] ↔ gaps.Free a b := by rw [Between]

theorem between_refl (a : Nat) : Between gaps a a [] := between_nil.mpr (gaps.refl a)

theorem between_cons {a b : Nat} {n : Node} {ns : List Node} :
    Between gaps a b (n :: ns) ↔
      gaps.Free a n.start ∧ n.Nested gaps ∧ Between gaps n.stop b ns := by rw [Between]

end

namespace Between

variable {gaps : Gaps} {a b c : Nat} {n : Node} {ns ms : List Node}

theorem le (h : Between gaps a b ns) : a ≤ b := by
  induction ns generalizing a with
  | nil => exact gaps.le (between_nil.mp h)
  | cons n ns ih =>
    obtain ⟨before, nested, behind⟩ := between_cons.mp h
    exact ((gaps.le before).trans nested.start_lt_stop.le).trans (ih behind)

theorem mono {a' b' : Nat} (h : Between gaps a b ns) (ha : gaps.Free a' a) (hb : gaps.Free b b') :
    Between gaps a' b' ns := by
  induction ns generalizing a a' with
  | nil => exact between_nil.mpr (gaps.trans (gaps.trans ha (between_nil.mp h)) hb)
  | cons n ns ih =>
    obtain ⟨before, nested, behind⟩ := between_cons.mp h
    exact between_cons.mpr ⟨gaps.trans ha before, nested, ih behind (gaps.refl _)⟩

theorem append (h : Between gaps a b ns) (h' : Between gaps b c ms) :
    Between gaps a c (ns ++ ms) := by
  induction ns generalizing a with
  | nil => exact h'.mono (between_nil.mp h) (gaps.refl c)
  | cons n ns ih =>
    obtain ⟨before, nested, behind⟩ := between_cons.mp h
    exact between_cons.mpr ⟨before, nested, ih behind⟩

theorem of_append (h : Between gaps a c (ns ++ ms)) :
    ∃ b, Between gaps a b ns ∧ Between gaps b c ms := by
  induction ns generalizing a with
  | nil => exact ⟨a, between_refl a, h⟩
  | cons n ns ih =>
    obtain ⟨before, nested, behind⟩ := between_cons.mp h
    obtain ⟨b, front, back⟩ := ih behind
    exact ⟨b, between_cons.mpr ⟨before, nested, front⟩, back⟩

theorem singleton_iff :
    Between gaps a b [n] ↔ gaps.Free a n.start ∧ n.Nested gaps ∧ gaps.Free n.stop b := by
  rw [between_cons, between_nil]

/-- The parts of a node reach from its beginning to its end when the node is made of them. -/
theorem tighten (h : Between gaps a b ns) (hne : ns ≠ []) :
    gaps.Free a ((ns.head?.map Node.start).getD 0) ∧
      gaps.Free ((ns.getLast?.map Node.stop).getD 0) b ∧
      gaps.Place ((ns.getLast?.map Node.stop).getD 0) ∧
      Between gaps ((ns.head?.map Node.start).getD 0) ((ns.getLast?.map Node.stop).getD 0) ns := by
  induction ns generalizing a with
  | nil => exact absurd rfl hne
  | cons n ns ih =>
    obtain ⟨before, nested, behind⟩ := between_cons.mp h
    cases ns with
    | nil =>
      exact ⟨before, between_nil.mp behind, (nested_iff.mp nested).1.2,
        between_cons.mpr ⟨gaps.refl _, nested, between_refl _⟩⟩
    | cons m ms =>
      obtain ⟨first, last, place, tight⟩ := ih behind (List.cons_ne_nil _ _)
      rw [← List.getLast?_cons_cons (a := n)] at last place tight
      exact ⟨before, last, place,
        between_cons.mpr ⟨gaps.refl _, nested, tight.mono first (gaps.refl _)⟩⟩

/-- A node made of parts that lie in order lies where they lie. -/
theorem branch {kind : Kind} (h : Between gaps a b ns) (joins : kind.Joins ns) :
    Between gaps a b [Node.branch kind ns] := by
  obtain ⟨first, last, place, tight⟩ := h.tighten joins.1
  refine singleton_iff.mpr ⟨first, nested_iff.mpr ⟨⟨?_, place⟩, .inr tight, joins.2⟩, last⟩
  obtain ⟨n, ms, rfl⟩ := List.exists_cons_of_ne_nil joins.1
  obtain ⟨before, nested, behind⟩ := between_cons.mp tight
  exact ((gaps.le before).trans_lt nested.start_lt_stop).trans_le behind.le

end Between

/-! ### Roles do not matter -/

/-- A node without its role. -/
def bare : Node → Node
  | .mk kind _ start stop line children => .mk kind none start stop line children

@[simp] theorem bare_withRole (n : Node) (role : Role) : (n.withRole role).bare = n.bare := by
  cases n; rfl

theorem nested_bare {gaps : Gaps} {n : Node} : n.bare.Nested gaps ↔ n.Nested gaps := by
  cases n
  rw [nested_iff, nested_iff]
  rfl

theorem start_bare (n : Node) : n.bare.start = n.start := by cases n; rfl

theorem stop_bare (n : Node) : n.bare.stop = n.stop := by cases n; rfl

theorem between_map_bare {gaps : Gaps} {a b : Nat} {ns : List Node} :
    Between gaps a b (ns.map bare) ↔ Between gaps a b ns := by
  induction ns generalizing a with
  | nil => rfl
  | cons n ns ih =>
    rw [List.map_cons, between_cons, between_cons, nested_bare, start_bare, stop_bare, ih]

theorem Between.congr {gaps : Gaps} {a b : Nat} {ns ms : List Node} (h : Between gaps a b ns)
    (same : ns.map bare = ms.map bare) : Between gaps a b ms := by
  rw [← between_map_bare, same, between_map_bare] at h
  exact h

/-! ### What lies where other nodes lie -/

/-- Wherever the first nodes lie, the second ones do. -/
def Fits (ns ms : List Node) : Prop :=
  ∀ ⦃gaps : Gaps⦄ ⦃a b : Nat⦄, Between gaps a b ns → Between gaps a b ms

namespace Fits

variable {ns ms ks ns' ms' : List Node}

theorem refl (ns : List Node) : Fits ns ns := fun _ _ _ h => h

theorem trans (h : Fits ns ms) (h' : Fits ms ks) : Fits ns ks := fun _ _ _ lies => h' (h lies)

theorem append (h : Fits ns ms) (h' : Fits ns' ms') : Fits (ns ++ ns') (ms ++ ms') := by
  intro gaps a b lies
  obtain ⟨c, front, back⟩ := lies.of_append
  exact (h front).append (h' back)

theorem of_bare (same : ns.map bare = ms.map bare) : Fits ns ms :=
  fun _ _ _ lies => lies.congr same

theorem branch {kind : Kind} (h : Fits ns ms) (joins : kind.Joins ms) :
    Fits ns [Node.branch kind ms] :=
  fun _ _ _ lies => (h lies).branch joins

theorem withKind (n : Node) (kind : Kind) (tag : kind.tag? = none)
    (proper : (kind == .comment) = false) : Fits [n] [n.withKind kind] := by
  intro gaps a b lies
  cases n
  obtain ⟨before, nested, behind⟩ := Between.singleton_iff.mp lies
  obtain ⟨covers, inside, _⟩ := nested_iff.mp nested
  exact Between.singleton_iff.mpr
    ⟨before, nested_iff.mpr ⟨covers, inside, proper, .inl tag⟩, behind⟩

end Fits

/-! ### Marks -/

/-- What identifies the type that a node declares: its sort and what the node covers. -/
def mark? (n : Node) : Option (Nat × Nat × Nat) :=
  n.kind.tag?.map fun tag => (tag, n.start, n.stop)

/-- The marks of all nodes of trees, in source order. -/
def marks (ns : List Node) : List (Nat × Nat × Nat) := (preorders ns).filterMap mark?

theorem marks_cons (n : Node) (ns : List Node) :
    marks (n :: ns) = n.mark?.toList ++ marks n.children ++ marks ns := by
  cases n with
  | mk kind role start stop line children =>
    simp only [marks, preorders, preorder, List.cons_append, List.filterMap_cons,
      List.filterMap_append]
    cases h : mark? (.mk kind role start stop line children) <;> simp [Node.children]

theorem eq_of_mem_mark? {n : Node} {m : Nat × Nat × Nat} (h : m ∈ n.mark?.toList) :
    n.kind.tag? = some m.1 ∧ m.2.1 = n.start ∧ m.2.2 = n.stop := by
  obtain ⟨tag, htag, rfl⟩ := Option.map_eq_some_iff.mp (Option.mem_toList.mp h)
  exact ⟨htag, rfl, rfl⟩

section

variable {gaps : Gaps}

theorem not_mem_marks_nil {m : Nat × Nat × Nat} : m ∉ marks [] := by simp [marks, preorders]

mutual

theorem Nested.bounds_of_mem_marks {m : Nat × Nat × Nat} :
    (n : Node) → n.Nested gaps → m ∈ n.mark?.toList ++ marks n.children →
      n.start ≤ m.2.1 ∧ m.2.1 < m.2.2 ∧ m.2.2 ≤ n.stop
  | .mk kind role start stop line children, h, hm => by
    obtain ⟨covers, inside, _⟩ := nested_iff.mp h
    rcases List.mem_append.mp hm with hm | hm
    · obtain ⟨_, hstart, hstop⟩ := eq_of_mem_mark? hm
      rw [hstart, hstop]
      exact ⟨le_rfl, covers.1, le_rfl⟩
    · rcases inside with none | inside
      · rw [none] at hm
        exact absurd hm not_mem_marks_nil
      · exact Between.bounds_of_mem_marks start stop children inside hm

theorem Between.bounds_of_mem_marks {m : Nat × Nat × Nat} :
    (a b : Nat) → (ns : List Node) → Between gaps a b ns → m ∈ marks ns →
      a ≤ m.2.1 ∧ m.2.1 < m.2.2 ∧ m.2.2 ≤ b
  | _, _, [], _, hm => absurd hm not_mem_marks_nil
  | a, b, n :: ns, h, hm => by
    obtain ⟨before, nested, behind⟩ := between_cons.mp h
    have first := gaps.le before
    rw [marks_cons] at hm
    rcases List.mem_append.mp hm with hm | hm
    · obtain ⟨left, covers, last⟩ := Nested.bounds_of_mem_marks n nested hm
      exact ⟨first.trans left, covers, last.trans behind.le⟩
    · obtain ⟨left, covers, last⟩ := Between.bounds_of_mem_marks n.stop b ns behind hm
      exact ⟨(first.trans nested.start_lt_stop.le).trans left, covers, last⟩

end

/-- Of several nodes that lie between two offsets, none reaches from the one to the other, nor does
anything inside them. -/
theorem Between.narrower {a b : Nat} {ns : List Node} (h : Between gaps a b ns)
    (several : ns.length ≠ 1) {m : Nat × Nat × Nat} (hm : m ∈ marks ns) :
    ¬ (m.2.1 = a ∧ m.2.2 = b) := by
  rintro ⟨hstart, hstop⟩
  match ns, several with
  | [], _ => exact not_mem_marks_nil hm
  | n :: k :: ns, _ =>
    obtain ⟨before, nested, behind⟩ := between_cons.mp h
    obtain ⟨before', nested', behind'⟩ := between_cons.mp behind
    have first := gaps.le before
    have next := gaps.le before'
    have covers := nested.start_lt_stop
    have covers' := nested'.start_lt_stop
    have end' := behind'.le
    rw [marks_cons] at hm
    rcases List.mem_append.mp hm with hm | hm
    · have last := (Nested.bounds_of_mem_marks n nested hm).2.2
      omega
    · have left := (Between.bounds_of_mem_marks n.stop b (k :: ns) behind hm).1
      omega

mutual

theorem Nested.nodup_marks :
    (n : Node) → n.Nested gaps → (n.mark?.toList ++ marks n.children).Nodup
  | .mk kind role start stop line children, h => by
    obtain ⟨_, inside, _, tag⟩ := nested_iff.mp h
    have alone : ((Node.mk kind role start stop line children).mark?.toList).Nodup := by
      cases mark? _ <;> simp
    rcases inside with none | inside
    · have empty : marks (Node.mk kind role start stop line children).children = [] := by
        rw [none]
        rfl
      rwa [empty, List.append_nil]
    · refine List.nodup_append.mpr
        ⟨alone, Between.nodup_marks start stop children inside, ?_⟩
      rintro m hm _ hm' rfl
      obtain ⟨htag, hstart, hstop⟩ := eq_of_mem_mark? hm
      -- Only a single part can cover as much as its node, and a node with a mark has several.
      rcases tag with none | several
      · rw [none] at htag
        cases htag
      · exact inside.narrower several hm' ⟨hstart, hstop⟩

/-- Where nodes lie in order, no mark stands twice. -/
theorem Between.nodup_marks :
    (a b : Nat) → (ns : List Node) → Between gaps a b ns → (marks ns).Nodup
  | _, _, [], _ => by simp [marks, preorders]
  | a, b, n :: ns, h => by
    obtain ⟨_, nested, behind⟩ := between_cons.mp h
    rw [marks_cons]
    refine List.nodup_append.mpr
      ⟨Nested.nodup_marks n nested, Between.nodup_marks n.stop b ns behind, ?_⟩
    rintro m hm _ hm' rfl
    obtain ⟨_, covers, last⟩ := Nested.bounds_of_mem_marks n nested hm
    have first := (Between.bounds_of_mem_marks n.stop b ns behind hm').1
    omega

end

end

end Node

/-! ### Places -/

namespace Place

mutual

theorem map_node_walkFrom (p : Place) :
    (n : Node) → p.node = n → (walkFrom p n).map node = n.preorder
  | .mk kind role start stop line children, h => by
    rw [walkFrom, Node.preorder, List.map_cons, h, map_node_walkParts p [] children]

theorem map_node_walkParts (parent : Place) :
    (before ns : List Node) → (walkParts parent before ns).map node = Node.preorders ns
  | _, [] => rfl
  | before, n :: ns => by
    rw [walkParts, Node.preorders, List.map_append,
      map_node_walkFrom (.part parent before n) n rfl, map_node_walkParts parent (n :: before) ns]

end

theorem map_node_walk (p : Place) : p.walk.map node = p.node.preorder :=
  map_node_walkFrom p p.node rfl

/-- Where no mark stands twice, places with the same mark are the same. -/
theorem eq_of_mark {p q root : Place} {m : Nat × Nat × Nat}
    (distinct : (root.node.preorder.filterMap Node.mark?).Nodup)
    (hp : p ∈ root.walk) (hq : q ∈ root.walk) (markP : p.node.mark? = some m)
    (markQ : q.node.mark? = some m) : p = q := by
  rw [← map_node_walk, List.filterMap_map] at distinct
  generalize root.walk = places at hp hq distinct
  induction places with
  | nil => cases hp
  | cons r rest ih =>
    have only : ∀ s ∈ rest, s.node.mark? = some m → r.node.mark? ≠ some m := by
      intro s hs markS markR
      rw [List.filterMap_cons_some (by simpa using markR)] at distinct
      exact (List.nodup_cons.mp distinct).1 (List.mem_filterMap.mpr ⟨s, hs, markS⟩)
    have distinct' : (rest.filterMap (Node.mark? ∘ node)).Nodup :=
      distinct.sublist ((List.sublist_cons_self r rest).filterMap _)
    rcases List.mem_cons.mp hp with rfl | inRest
    · rcases List.mem_cons.mp hq with rfl | inRest'
      · rfl
      · exact absurd markP (only q inRest' markQ)
    · rcases List.mem_cons.mp hq with rfl | inRest'
      · exact absurd markQ (only p inRest markP)
      · exact ih inRest inRest' distinct'

end Place

end ParamSchema
