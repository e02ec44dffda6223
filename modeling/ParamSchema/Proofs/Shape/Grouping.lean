import ParamSchema.Proofs.Shape.Leaves

/-!
Grouping and naming in unions. Types that differ in how the members of unions are grouped, and in
the names that stand for them, have the same text (`Resolver.Regroups`), as long as each group has a
member with a value. A group or a name that stands for null and undefined only is no type without a
value, and so the union around it has no kind at all (`Resolver.typeText_ignores_grouping`).
-/

namespace ParamSchema

namespace Shape

theorem valued_append (xs ys : List Shape) : valued (xs ++ ys) = valued xs ++ valued ys :=
  List.filter_append ..

theorem valued_cons_of_valued {m : Shape} (h : m.isNullish = false) (ms : List Shape) :
    valued (m :: ms) = m :: valued ms := List.filter_cons_of_pos (by simp [h])

theorem valued_cons_of_nullish {m : Shape} (h : m.isNullish = true) (ms : List Shape) :
    valued (m :: ms) = valued ms := List.filter_cons_of_neg (by simp [h])

theorem valued_ne_nil_iff {ms : List Shape} : valued ms ≠ [] ↔ ∃ m ∈ ms, m.isNullish = false := by
  simp [valued]

theorem valued_eq_nil_iff {ms : List Shape} : valued ms = [] ↔ ∀ m ∈ ms, m.isNullish = true := by
  simp [valued]

theorem nullish_cases {m : Shape} (h : m.isNullish = true) :
    m = .primitive (txt "null") ∨ m = .primitive (txt "undefined") := by
  cases m with
  | primitive name => simpa [isNullish] using h
  | _ => cases h

theorem genuine_union_around {known : SourceFile → Prop} {before after : List Shape} {m : Shape}
    (others : ∀ n ∈ before ++ after, n.Genuine known) (h : m.Genuine known) :
    (Shape.union (before ++ m :: after)).Genuine known := by
  apply genuine_union_iff.mpr
  intro n mem
  rcases List.mem_append.mp mem with mem | mem
  · exact others n (List.mem_append_left _ mem)
  · rcases List.mem_cons.mp mem with rfl | mem
    · exact h
    · exact others n (List.mem_append_right _ mem)

/-! ### Operands -/

mutual

/-- The types that unions within unions are made of, however they are grouped. -/
def operands : Shape → List Shape
  | .union members => operandsOf members
  | s => [s]

def operandsOf : List Shape → List Shape
  | [] => []
  | m :: rest => m.operands ++ operandsOf rest

end

/-- Whether a type is a union without a member that has a value. -/
def isVoid : Shape → Bool
  | .union members => members.all isNullish
  | _ => false

mutual

/-- Whether all groups in a type have a member with a value. -/
def isFilled : Shape → Bool
  | .union members => areFilled members
  | _ => true

def areFilled : List Shape → Bool
  | [] => true
  | m :: rest => !m.isVoid && m.isFilled && areFilled rest

end

theorem operandsOf_append (xs ys : List Shape) :
    operandsOf (xs ++ ys) = operandsOf xs ++ operandsOf ys := by
  induction xs with
  | nil => rfl
  | cons x xs ih => rw [List.cons_append, operandsOf, ih, operandsOf, List.append_assoc]

theorem union_or_operand (s : Shape) : (∃ members, s = .union members) ∨ s.operands = [s] := by
  cases s with
  | union members => exact .inl ⟨members, rfl⟩
  | _ => exact .inr rfl

end Shape

/-! ### Operands in the syntax -/

namespace Site

/-- The parts behind the parts `before` that are neither mere tokens nor comments. -/
def properFrom (file : SourceFile) (parent : Place) (before ns : List Node) : List Site :=
  (((Place.partsFrom parent before ns).filter Place.isNamed).filter (!·.isComment)).map (⟨file, ·⟩)

variable {file : SourceFile} {parent : Place} {before : List Node} {n : Node}

theorem properFrom_cons_of_proper (h : (n.isNamed && !n.isComment) = true) (ns : List Node) :
    properFrom file parent before (n :: ns) =
      ⟨file, .part parent before n⟩ :: properFrom file parent (n :: before) ns := by
  rw [properFrom, properFrom, Place.partsFrom, List.filter_filter, List.filter_filter,
    List.filter_cons_of_pos, List.map_cons]
  rwa [Bool.and_comm] at h

theorem properFrom_cons_of_not (h : (n.isNamed && !n.isComment) = false) (ns : List Node) :
    properFrom file parent before (n :: ns) = properFrom file parent (n :: before) ns := by
  rw [properFrom, properFrom, Place.partsFrom, List.filter_filter, List.filter_filter,
    List.filter_cons_of_neg]
  rw [Bool.and_comm] at h
  exact Bool.eq_false_iff.mp h

theorem firstShape_eq (ns : List Node) :
    file.firstShape parent before ns = Site.shape? (properFrom file parent before ns).head? := by
  induction ns generalizing before with
  | nil => rfl
  | cons n ns ih =>
    rw [SourceFile.firstShape]
    cases proper : n.isNamed && !n.isComment with
    | true =>
      rw [properFrom_cons_of_proper proper]
      rfl
    | false =>
      rw [properFrom_cons_of_not proper, ← ih]
      rfl

theorem proper_eq (site : Site) :
    site.proper = properFrom site.file site.place [] site.node.children := rfl

/-- A type in parentheses is the type between them. -/
theorem shape_parenthesized {site : Site} (kind : site.node.kind = .parenthesizedType) :
    site.shape = Site.shape? site.proper.head? := by
  rw [proper_eq, ← firstShape_eq, shape]
  cases node : site.node with
  | mk kind' role start stop line children =>
    obtain rfl : kind' = .parenthesizedType := by rwa [node] at kind
    rfl

/-- The members of a union have the operands of its parts, be these unions or not. -/
theorem operandsOf_memberShapes {ns : List Node} {members : List Shape}
    (h : file.memberShapes (some .unionType) parent before ns = .ok members) :
    ∃ shapes, (properFrom file parent before ns).mapM shape = .ok shapes ∧
      Shape.operandsOf members = shapes.flatMap Shape.operands := by
  induction ns generalizing before members with
  | nil =>
    cases h
    exact ⟨[], rfl, rfl⟩
  | cons n ns ih =>
    obtain ⟨kind, role, start, stop, line, children⟩ := n
    obtain ⟨first, rest, rfl, hrest, hfirst⟩ := SourceFile.memberShapes_part h
    obtain ⟨shapes, hshapes, same⟩ := ih hrest
    rw [Shape.operandsOf_append, same]
    have cons {s : Shape} (taken : (!kind.isNamed || kind == .comment) = false)
        (hs : shape ⟨file, .part parent before (.mk kind role start stop line children)⟩ = .ok s)
        (operands : Shape.operandsOf first = s.operands) :
        ∃ shapes', (properFrom file parent before
            (.mk kind role start stop line children :: ns)).mapM shape = .ok shapes' ∧
          Shape.operandsOf first ++ shapes.flatMap Shape.operands =
            shapes'.flatMap Shape.operands := by
      refine ⟨s :: shapes, ?_, by rw [operands]; rfl⟩
      have proper : (Node.isNamed (.mk kind role start stop line children) &&
          !Node.isComment (.mk kind role start stop line children)) = true := by
        simpa [Node.isNamed, Node.isComment, Node.kind] using taken
      rw [properFrom_cons_of_proper proper, List.mapM_cons]
      exact Outcome.bind_eq_ok.mpr ⟨s, hs, Outcome.bind_eq_ok.mpr ⟨shapes, hshapes, rfl⟩⟩
    rcases hfirst with ⟨skipped, rfl⟩ | ⟨taken, flat, inside⟩ | ⟨taken, _, s, hs, rfl⟩
    · rw [properFrom_cons_of_not (by
        simpa [Node.isNamed, Node.isComment, Node.kind, or_iff_not_imp_left] using skipped)]
      exact ⟨shapes, hshapes, rfl⟩
    · obtain rfl : kind = .unionType := Option.some.inj flat
      exact cons taken (Outcome.bind_eq_ok.mpr ⟨first, inside, rfl⟩) rfl
    · exact cons taken hs (List.append_nil _)

/-- The operands of a union are those of its parts, with or without parentheses around them. -/
theorem operands_union {site : Site} {s : Shape} (kind : site.node.kind = .unionType)
    (h : site.shape = .ok s) :
    ∃ shapes, site.proper.mapM shape = .ok shapes ∧ s.operands = shapes.flatMap Shape.operands := by
  cases node : site.node with
  | mk kind' role start stop line children =>
    obtain rfl : kind' = .unionType := by rwa [node] at kind
    rw [shape, node] at h
    obtain ⟨members, hmembers, h⟩ := Outcome.bind_eq_ok.mp h
    cases h
    rw [proper_eq, node]
    exact operandsOf_memberShapes hmembers

end Site

namespace Resolver

open Shape (valued)

variable {r : Resolver} {known : SourceFile → Prop} {s t : Shape} {before group after : List Shape}

/-! ### Types that differ in grouping and naming -/

/-- Types that differ in the grouping of unions and in names. Groups that are taken apart have a
member with a value, and what is put in the place of a member has a value just when the member
has. -/
inductive Regroups (r : Resolver) (known : SourceFile → Prop) : Shape → Shape → Prop where
  | refl {s : Shape} : s.Genuine known → Regroups r known s s
  | symm {s t : Shape} : Regroups r known s t → Regroups r known t s
  | trans {s t u : Shape} : Regroups r known s t → Regroups r known t u → Regroups r known s u
  /-- A group of members gives way to its members. -/
  | group {before group after : List Shape} :
      (Shape.union (before ++ .union group :: after)).Genuine known →
      (∃ m ∈ group, m.isNullish = false) →
      Regroups r known (.union (before ++ .union group :: after))
        (.union (before ++ group ++ after))
  /-- A union of one type is this type. -/
  | alone {s : Shape} : s.Genuine known → Regroups r known (.union [s]) s
  | member {before after : List Shape} {m m' : Shape} :
      (∀ n ∈ before ++ after, n.Genuine known) → Regroups r known m m' →
      m.isNullish = m'.isNullish →
      Regroups r known (.union (before ++ m :: after)) (.union (before ++ m' :: after))
  /-- A name that is not met again below itself gives way to what it stands for. -/
  | target {s t : Shape} :
      s.Genuine known → r.target? s = .ok (some t) → (∀ u, r.Reaches t u → u.token? ≠ s.token?) →
      Regroups r known s t
  /-- Types that are taken apart no further, and are the same leaf. -/
  | leaf {s t : Shape} {x : Except Overflow Leaf} :
      s.Genuine known → t.Genuine known → r.leafStep s = [.inr x] → r.leafStep t = [.inr x] →
      Regroups r known s t

theorem Regroups.genuine (lib : Library known) (hr : r.Of known) (h : r.Regroups known s t) :
    s.Genuine known ∧ t.Genuine known := by
  induction h with
  | refl hs => exact ⟨hs, hs⟩
  | symm _ ih => exact ih.symm
  | trans _ _ ih ih' => exact ⟨ih.1, ih'.2⟩
  | group hs _ =>
    refine ⟨hs, Shape.genuine_union_iff.mpr ?_⟩
    have inside := Shape.genuine_union_iff.mp hs
    intro m mem
    rcases List.mem_append.mp mem with mem | mem
    · rcases List.mem_append.mp mem with mem | mem
      · exact inside m (List.mem_append_left _ mem)
      · exact Shape.genuine_union_iff.mp (inside _ (by simp)) m mem
    · exact inside m (by simp [mem])
  | alone hs =>
    refine ⟨Shape.genuine_union_iff.mpr ?_, hs⟩
    intro m mem
    rwa [List.mem_singleton.mp mem]
  | member others _ _ ih =>
    exact ⟨Shape.genuine_union_around others ih.1, Shape.genuine_union_around others ih.2⟩
  | target hs found _ => exact ⟨hs, Program.genuine_target lib hr hs (target?_base found)⟩
  | leaf hs ht _ _ => exact ⟨hs, ht⟩

/-! ### The same leaves -/

theorem leaves_of_leafStep {x : Except Overflow Leaf} (h : r.leafStep s = [.inr x]) :
    r.leaves s = [x] := by
  obtain ⟨n, bound⟩ := exists_bound r s
  rw [leaves, bound, Search.along, if_neg (by cases s.token? <;> simp), h]
  rfl

theorem leafStep_of_nullish (h : s.isNullish = true) : r.leafStep s = [.inr (.ok .other)] := by
  rcases Shape.nullish_cases h with rfl | rfl <;> rfl

section

variable (lib : Library known) (hr : r.Of known)

include lib hr

theorem leaves_group (hs : (Shape.union (before ++ .union group :: after)).Genuine known)
    (some : ∃ m ∈ group, m.isNullish = false) :
    r.leaves (.union (before ++ .union group :: after)) =
      r.leaves (.union (before ++ group ++ after)) := by
  have ht := (Regroups.genuine lib hr (.group hs some)).2
  have hgroup : (Shape.union group).Genuine known := Shape.genuine_union_iff.mp hs _ (by simp)
  have filled : valued group ≠ [] := Shape.valued_ne_nil_iff.mpr some
  have outer : valued (before ++ .union group :: after) =
      valued before ++ .union group :: valued after := by
    rw [Shape.valued_append, Shape.valued_cons_of_valued rfl]
  have inner : valued (before ++ group ++ after) =
      valued before ++ valued group ++ valued after := by
    rw [Shape.valued_append, Shape.valued_append]
  rw [leaves_union lib hr hs, leaves_union lib hr ht, outer, inner, if_neg (by simp),
    if_neg (by simp [filled]), List.flatMap_append, List.flatMap_cons, leaves_union lib hr hgroup,
    if_neg filled, List.flatMap_append, List.flatMap_append, List.append_assoc]

theorem leaves_alone (hs : s.Genuine known) : r.leaves (.union [s]) = r.leaves s := by
  rw [leaves_union lib hr (Regroups.genuine lib hr (.alone hs)).1]
  cases nullish : s.isNullish with
  | true =>
    rw [Shape.valued_cons_of_nullish nullish, if_pos (show valued [] = [] from rfl),
      leaves_of_leafStep (leafStep_of_nullish nullish)]
  | false =>
    rw [Shape.valued_cons_of_valued nullish, if_neg (List.cons_ne_nil _ _)]
    exact List.flatMap_singleton ..

/-- Members with the same leaves can take the place of one another. -/
theorem leaves_member {m m' : Shape}
    (hs : (Shape.union (before ++ m :: after)).Genuine known)
    (hs' : (Shape.union (before ++ m' :: after)).Genuine known)
    (same : r.leaves m = r.leaves m') (value : m.isNullish = m'.isNullish) :
    r.leaves (.union (before ++ m :: after)) = r.leaves (.union (before ++ m' :: after)) := by
  rw [leaves_union lib hr hs, leaves_union lib hr hs', Shape.valued_append, Shape.valued_append]
  cases nullish : m.isNullish with
  | true =>
    rw [Shape.valued_cons_of_nullish nullish, Shape.valued_cons_of_nullish (value ▸ nullish)]
  | false =>
    rw [Shape.valued_cons_of_valued nullish, Shape.valued_cons_of_valued (value ▸ nullish),
      if_neg (by simp), if_neg (by simp), List.flatMap_append, List.flatMap_append,
      List.flatMap_cons, List.flatMap_cons, same]

theorem Regroups.leaves_eq (h : r.Regroups known s t) : r.leaves s = r.leaves t := by
  induction h with
  | refl => rfl
  | symm _ ih => exact ih.symm
  | trans _ _ ih ih' => exact ih.trans ih'
  | group hs some => exact leaves_group lib hr hs some
  | alone hs => exact leaves_alone lib hr hs
  | member others inner value ih =>
    obtain ⟨hs, hs'⟩ := Regroups.genuine lib hr (.member others inner value)
    exact leaves_member lib hr hs hs' ih value
  | target hs found apart => exact leaves_target lib hr hs found apart
  | leaf _ _ step step' => rw [leaves_of_leafStep step, leaves_of_leafStep step']

theorem Regroups.typeText_eq (h : r.Regroups known s t) : r.typeText s = r.typeText t := by
  rw [typeText, typeText, h.leaves_eq lib hr]

end

/-! ### Normal forms -/

section

variable (lib : Library known) (hr : r.Of known)

include lib hr

omit lib hr in
theorem regroups_operand {m : Shape} (alone : m.operands = [m])
    (hs : (Shape.union (before ++ m :: after)).Genuine known) :
    r.Regroups known (.union (before ++ m :: after)) (.union (before ++ m.operands ++ after)) := by
  rw [alone, List.append_assoc]
  exact .refl hs

mutual

/-- A member gives way to its operands. -/
theorem regroups_operands : (m : Shape) → m.isVoid = false → m.isFilled = true →
    ∀ before after, (Shape.union (before ++ m :: after)).Genuine known →
    r.Regroups known (.union (before ++ m :: after)) (.union (before ++ m.operands ++ after))
  | .union members => by
    intro full filled before after hs
    have some : ∃ m ∈ members, m.isNullish = false := by
      simpa [Shape.isVoid] using full
    have step : r.Regroups known _ _ := .group hs some
    have inner := regroups_operandsOf members filled before after (step.genuine lib hr).2
    exact step.trans inner
  | .primitive _ | .literal _ | .intersection _ _ | .object _ | .record _ _ _ | .interface _ _
  | .reference _ _ _ | .verbatim _ => by
    intro _ _ before after hs
    exact regroups_operand rfl hs

theorem regroups_operandsOf : (members : List Shape) → Shape.areFilled members = true →
    ∀ before after, (Shape.union (before ++ members ++ after)).Genuine known →
    r.Regroups known (.union (before ++ members ++ after))
      (.union (before ++ Shape.operandsOf members ++ after))
  | [] => by
    intro _ before after hs
    exact .refl hs
  | m :: rest => by
    intro filled before after hs
    simp only [Shape.areFilled, Bool.and_eq_true, Bool.not_eq_true'] at filled
    obtain ⟨⟨full, inside⟩, others⟩ := filled
    have split : before ++ m :: rest ++ after = before ++ m :: (rest ++ after) := by simp
    have joined : before ++ Shape.operandsOf (m :: rest) ++ after =
        before ++ m.operands ++ Shape.operandsOf rest ++ after := by simp [Shape.operandsOf]
    rw [split] at hs ⊢
    have first := regroups_operands m full inside before (rest ++ after) hs
    rw [← List.append_assoc] at first
    rw [joined]
    exact first.trans (regroups_operandsOf rest others _ after (first.genuine lib hr).2)

end

/-- A type whose groups are filled is the union of its operands. -/
theorem regroups_union_operands (hs : s.Genuine known) (filled : s.isFilled = true) :
    r.Regroups known s (.union s.operands) := by
  rcases Shape.union_or_operand s with ⟨members, rfl⟩ | alone
  · have flat := regroups_operandsOf lib hr members filled [] []
    simp only [List.nil_append, List.append_nil] at flat
    exact flat hs
  · rw [alone]
    exact .symm (.alone hs)

end

/-! ### Members without a value -/

/-- A member that is no type without a value, and yet stands for nothing but such types: a group of
them, or a name of one. -/
def Blank (r : Resolver) (m : Shape) : Prop :=
  (∃ group, m = .union group ∧ ∀ n ∈ group, n.isNullish = true) ∨
    ∃ t, r.target? m = .ok (some t) ∧ t.isNullish = true

theorem Blank.valued {m : Shape} (blank : r.Blank m) : m.isNullish = false := by
  rcases blank with ⟨group, rfl, _⟩ | ⟨t, found, _⟩
  · rfl
  · obtain ⟨name, arguments, site, rfl⟩ := Program.reference_of_target (target?_base found)
    rfl

section

variable (lib : Library known) (hr : r.Of known)

include lib hr

/-- A blank member keeps the union around it from having kinds. -/
theorem Blank.other_mem_leaves {m : Shape} (blank : r.Blank m)
    (hs : (Shape.union (before ++ m :: after)).Genuine known) :
    .ok .other ∈ r.leaves (.union (before ++ m :: after)) := by
  have inside : r.Opens (.union (before ++ m :: after)) m := .member (by simp) blank.valued
  apply (mem_leaves_iff lib hr hs).mpr
  rcases blank with ⟨group, rfl, none⟩ | ⟨t, found, nullish⟩
  · refine ⟨_, .single inside, ?_⟩
    have empty : group.filter (!·.isNullish) = [] := Shape.valued_eq_nil_iff.mpr none
    rw [leafStep, empty]
    exact List.mem_singleton.mpr rfl
  · refine ⟨t, .tail (.single inside) (.target found), ?_⟩
    rw [leafStep_of_nullish nullish]
    exact List.mem_singleton.mpr rfl

/-- Members without a value can be left out. -/
theorem leaves_without_nullish (hs : (Shape.union (before ++ group ++ after)).Genuine known)
    (none : ∀ m ∈ group, m.isNullish = true) :
    r.leaves (.union (before ++ group ++ after)) = r.leaves (.union (before ++ after)) := by
  have ht : (Shape.union (before ++ after)).Genuine known := by
    apply Shape.genuine_union_iff.mpr
    intro m mem
    apply Shape.genuine_union_iff.mp hs
    rcases List.mem_append.mp mem with mem | mem <;> simp [mem]
  rw [leaves_union lib hr hs, leaves_union lib hr ht, Shape.valued_append, Shape.valued_append,
    Shape.valued_append, Shape.valued_eq_nil_iff.mpr none, List.append_nil]

end

/-! ### Kinds of operands -/

theorem leaves_of_primitiveKind {kind : PrimitiveKind} (h : s.primitiveKind? = some kind) :
    ∃ leaf : Leaf, r.leaves s = [.ok leaf] ∧ leaf.kind? = some kind := by
  have steps := leafSteps_leafStep r s
  generalize step : r.leafStep s = leaf at steps
  cases steps with
  | kind same found _ _ =>
    rw [h] at found
    cases found
    exact ⟨_, leaves_of_leafStep step, same⟩
  | opens _ none _ _ => rw [h] at none; cases none
  | fails none _ _ => rw [h] at none; cases none
  | other none _ _ => rw [h] at none; cases none

theorem leafKinds_of_primitiveKinds {members : List Shape}
    (all : ∀ m ∈ members, ∃ kind, m.primitiveKind? = some kind) :
    leafKinds (members.flatMap r.leaves) =
      .ok (some (members.filterMap Shape.primitiveKind?)) := by
  induction members with
  | nil => rfl
  | cons m members ih =>
    obtain ⟨kind, found⟩ := all m List.mem_cons_self
    obtain ⟨leaf, leaves, same⟩ := leaves_of_primitiveKind (r := r) found
    rw [List.flatMap_cons, leaves, List.filterMap_cons_some found]
    simp only [List.singleton_append, leafKinds, same]
    rw [ih fun n mem => all n (List.mem_cons_of_mem m mem)]
    rfl

theorem primitiveKind_of_nullish {m : Shape} (h : m.isNullish = true) :
    m.primitiveKind? = none := by
  rcases Shape.nullish_cases h with rfl | rfl <;> rfl

theorem filterMap_primitiveKind_valued (members : List Shape) :
    (valued members).filterMap Shape.primitiveKind? = members.filterMap Shape.primitiveKind? := by
  induction members with
  | nil => rfl
  | cons m members ih =>
    cases nullish : m.isNullish with
    | true =>
      rw [Shape.valued_cons_of_nullish nullish, ih,
        List.filterMap_cons_none (primitiveKind_of_nullish nullish)]
    | false =>
      rw [Shape.valued_cons_of_valued nullish, List.filterMap_cons, List.filterMap_cons, ih]

/-- A union of types with kinds, and of types without a value, has just these kinds. -/
theorem typeText_of_primitiveKinds (lib : Library known) (hr : r.Of known) {members : List Shape}
    (hs : (Shape.union members).Genuine known)
    (all : ∀ m ∈ members, m.isNullish = true ∨ ∃ kind, m.primitiveKind? = some kind) :
    r.typeText (.union members) = .ok (kindsText (members.filterMap Shape.primitiveKind?)) := by
  have kinds : ∀ m ∈ valued members, ∃ kind, m.primitiveKind? = some kind := by
    intro m mem
    obtain ⟨mem, value⟩ := List.mem_filter.mp mem
    rcases all m mem with nullish | found
    · rw [nullish] at value
      cases value
    · exact found
  rw [typeText, leaves_union lib hr hs, ← filterMap_primitiveKind_valued]
  split
  · next empty =>
    rw [empty]
    rfl
  · rw [leafKinds_of_primitiveKinds kinds]
    rfl

/-- A member that names a type with a kind gives way to this type. -/
theorem regroups_name {m : Shape} {kind : PrimitiveKind}
    (hs : (Shape.union (before ++ m :: after)).Genuine known)
    (found : r.target? m = .ok (some t)) (h : t.primitiveKind? = some kind) :
    r.Regroups known (.union (before ++ m :: after)) (.union (before ++ t :: after)) := by
  obtain ⟨name, arguments, site, rfl⟩ := Program.reference_of_target (target?_base found)
  have inside := Shape.genuine_union_iff.mp hs
  have splits : t.splits = false := by
    cases t with
    | literal | primitive => rfl
    | _ => cases h
  have value : t.isNullish = false := by
    cases nullish : t.isNullish with
    | false => rfl
    | true =>
      rw [primitiveKind_of_nullish nullish] at h
      cases h
  refine .member ?_ (.target (inside _ (by simp)) found ?_) value.symm
  · intro n mem
    apply inside n
    rcases List.mem_append.mp mem with mem | mem <;> simp [mem]
  · intro u reached
    rcases Relation.ReflTransGen.cases_head reached with rfl | ⟨v, step, _⟩
    · cases t with
      | literal | primitive => simp [Shape.token?]
      | _ => cases h
    · rw [splits_of_spreads step.spreads] at splits
      cases splits

/-! ### The text of a type -/

/-- A resolver for the files of a file system. -/
def Over (fs : FileSystem) : Resolver → Prop
  | .textual => True
  | .program p => ∃ extensions requested, Program.load fs extensions requested = .ok p

theorem Over.readFrom {fs : FileSystem} (h : r.Over fs) : r.Of (SourceFile.ReadFrom fs) := by
  cases r with
  | textual => exact textual_of
  | program p =>
    obtain ⟨extensions, requested, loaded⟩ := h
    exact Program.of_load loaded

/-- The text of a type does not depend on how unions are grouped and which names stand for members,
where each group has a member with a value: it is that of all operands in one union. Parentheses
leave no trace, and types without a value are left out of the union that they stand in. But a group
of these alone, or a name of one, is not left out: the text is unknown. -/
theorem typeText_ignores_grouping {fs : FileSystem} (hfs : r.Over fs) :
    (∀ s t, r.Regroups (SourceFile.ReadFrom fs) s t → r.typeText s = r.typeText t) ∧
    (∀ s : Shape, s.Genuine (SourceFile.ReadFrom fs) → s.isFilled = true →
      r.typeText s = r.typeText (.union s.operands) ∧
      ((∀ m ∈ s.operands, m.isNullish = true ∨ ∃ kind, m.primitiveKind? = some kind) →
        r.typeText s = .ok (kindsText (s.operands.filterMap Shape.primitiveKind?)))) ∧
    (∀ site : Site, site.node.kind = .parenthesizedType →
      site.shape = Site.shape? site.proper.head?) ∧
    (∀ (site : Site) (s : Shape), site.node.kind = .unionType → site.shape = .ok s →
      ∃ shapes, site.proper.mapM Site.shape = .ok shapes ∧
        s.operands = shapes.flatMap Shape.operands) ∧
    (∀ before group after : List Shape,
      (Shape.union (before ++ group ++ after)).Genuine (SourceFile.ReadFrom fs) →
      (∀ m ∈ group, m.isNullish = true) →
      r.typeText (.union (before ++ group ++ after)) = r.typeText (.union (before ++ after))) ∧
    (∀ (before : List Shape) (m : Shape) (after : List Shape) (text : Text),
      (Shape.union (before ++ m :: after)).Genuine (SourceFile.ReadFrom fs) → r.Blank m →
      r.typeText (.union (before ++ m :: after)) = .ok text → text = txt "unknown") := by
  have lib := library_readFrom fs
  have hr := hfs.readFrom
  refine ⟨?_, ?_, fun site => Site.shape_parenthesized, fun site s => Site.operands_union, ?_, ?_⟩
  · intro s t same
    exact same.typeText_eq lib hr
  · intro s hs filled
    have flat := regroups_union_operands lib hr hs filled
    refine ⟨flat.typeText_eq lib hr, ?_⟩
    intro all
    rw [flat.typeText_eq lib hr]
    exact typeText_of_primitiveKinds lib hr (flat.genuine lib hr).2 all
  · intro before group after hs none
    rw [typeText, typeText, leaves_without_nullish lib hr hs none]
  · intro before m after text hs blank h
    exact typeText_eq_unknown (blank.other_mem_leaves lib hr hs) rfl h

/-- Types without a value, a group in a group and a name of a literal type. -/
theorem typeText_ignores_grouping_nested :
    let path : Path := ⟨false, [txt "a.ts"]⟩
    let fs := FileSystem.ofSource path
      "type S = 5; type A = ((S | 'a') | undefined) | (true | null)"
    ∃ p s m t rest, Program.load fs [] [path] = .ok p ∧
      s.Genuine (SourceFile.ReadFrom fs) ∧ s.isFilled = true ∧ s.operands = m :: rest ∧
      (program p).typeText s = (program p).typeText (.union (m :: rest)) ∧
      (program p).target? m = .ok (some t) ∧
      (program p).typeText (.union (m :: rest)) = (program p).typeText (.union (t :: rest)) ∧
      (program p).typeText s = .ok (txt "boolean | number | string") := by
  intro path fs
  have run : ((Program.withAlias? fs path (txt "A")).map fun found =>
      found.2.shape >>= fun s =>
        s.operands.head?.elim (.ok none) (program found.1).target? >>= fun t? =>
          ((program found.1).typeText s).map fun text =>
            (s.isFilled, t?.bind Shape.primitiveKind?, text)) =
      some (.ok (true, some .number, txt "boolean | number | string")) := by
    decide +kernel
  obtain ⟨⟨p, value⟩, found, eq⟩ := Option.map_eq_some_iff.mp run
  obtain ⟨loaded, known⟩ := Program.withAlias?_eq_some found
  obtain ⟨s, shape, eq⟩ := Outcome.bind_eq_ok.mp eq
  obtain ⟨t?, target, eq⟩ := Outcome.bind_eq_ok.mp eq
  obtain ⟨text, typeText, eq⟩ := Outcome.map_eq_ok.mp eq
  simp only [Prod.mk.injEq] at eq
  obtain ⟨filled, kind, rfl⟩ := eq
  obtain ⟨t, rfl, kind⟩ := Option.bind_eq_some_iff.mp kind
  obtain ⟨m, rest, operands⟩ : ∃ m rest, s.operands = m :: rest := by
    apply List.exists_cons_of_ne_nil
    intro none
    rw [none] at target
    cases target
  rw [operands] at target
  have hs : s.Genuine (SourceFile.ReadFrom fs) := Site.genuine_shape known shape
  have hfs : (program p).Over fs := ⟨[], [path], loaded⟩
  have flat := regroups_union_operands (library_readFrom fs) hfs.readFrom hs filled
  have inside := (flat.genuine (library_readFrom fs) hfs.readFrom).2
  rw [operands] at inside
  have renamed : (program p).Regroups (SourceFile.ReadFrom fs) (.union ([] ++ m :: rest))
      (.union ([] ++ t :: rest)) := regroups_name inside target kind
  have whole := ((typeText_ignores_grouping hfs).2.1 s hs filled).1
  rw [operands] at whole
  exact ⟨p, s, m, t, rest, loaded, hs, filled, operands, whole, target,
    (typeText_ignores_grouping hfs).1 _ _ renamed, typeText⟩

/-- A group of types without a value hides what stands beside it. -/
theorem typeText_hidden_by_nullish_group :
    let path : Path := ⟨false, [txt "a.ts"]⟩
    let fs := FileSystem.ofSource path "type A = (null | undefined) | string"
    ∃ p s, Program.load fs [] [path] = .ok p ∧ s.Described fs ∧
      (program p).typeText s = .ok (txt "unknown") ∧
      (program p).typeText (.union s.operands) = .ok (txt "string") := by
  intro path fs
  have run : ((Program.withAlias? fs path (txt "A")).map fun found =>
      found.2.shape.map fun s =>
        ((program found.1).typeText s, (program found.1).typeText (.union s.operands))) =
      some (.ok (.ok (txt "unknown"), .ok (txt "string"))) := by
    decide +kernel
  obtain ⟨⟨p, value⟩, found, eq⟩ := Option.map_eq_some_iff.mp run
  obtain ⟨loaded, known⟩ := Program.withAlias?_eq_some found
  obtain ⟨s, shape, both⟩ := Outcome.map_eq_ok.mp eq
  obtain ⟨grouped, flat⟩ := Prod.mk.inj both
  exact ⟨p, s, loaded, .written known shape, grouped, flat⟩

end Resolver

end ParamSchema
