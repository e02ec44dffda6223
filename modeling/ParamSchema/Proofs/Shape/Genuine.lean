import ParamSchema.Program.Resolve
import ParamSchema.Proofs.Layout.Basic
import ParamSchema.Proofs.Outcome
import ParamSchema.Proofs.Places

/-!
Genuine shapes: those that are what the sites they hold write, all in known files
(`Shape.Genuine`). The shape of the type at a site is genuine (`Site.genuine_shape`), and so is what
a genuine shape stands for in a program of known files (`Program.genuine_target`).
-/

namespace ParamSchema

/-- A site of a known file. -/
structure Site.Of (known : SourceFile → Prop) (s : Site) : Prop where
  file : known s.file
  place : s.file.root.Within s.place

namespace Site.Of

variable {known : SourceFile → Prop} {s t : Site}

theorem child? {role : Role} (h : s.Of known) (found : s.child? role = some t) : t.Of known := by
  obtain ⟨q, hq, rfl⟩ := Option.map_eq_some_iff.mp found
  exact ⟨h.file, Place.within_of_mem_parts h.place (Place.mem_parts_of_child? hq)⟩

theorem named (h : s.Of known) (found : t ∈ s.named) : t.Of known := by
  obtain ⟨q, hq, rfl⟩ := List.mem_map.mp found
  exact ⟨h.file, Place.within_of_mem_parts h.place (Place.mem_parts_of_named hq)⟩

end Site.Of

/-- The declarations of an interface: all declarations of the name in one scope of a known file that
declare interfaces. -/
def Declared (known : SourceFile → Prop) (declarations : List Site) : Prop :=
  declarations ≠ [] ∧ ∃ file scope name, known file ∧ file.root.Within scope ∧
    scope.isScope = true ∧ declarations =
      (file.declarationsIn .type name scope).filter (·.node.kind == .interfaceDeclaration)

namespace Shape

/-- A shape that is what the sites in it write. -/
inductive Genuine (known : SourceFile → Prop) : Shape → Prop where
  | primitive (name : Text) : Genuine known (.primitive name)
  | literal (value : LiteralValue) : Genuine known (.literal value)
  | verbatim (text : Text) : Genuine known (.verbatim text)
  | union {members : List Shape} :
      (∀ m ∈ members, Genuine known m) → Genuine known (.union members)
  | object {site : Site} : site.Of known → Genuine known (.object site)
  | record {key value : Shape} {site : Site} :
      Genuine known key → Genuine known value → site.Of known →
      Genuine known (.record key value site)
  | interface {name : Text} {declarations : List Site} :
      Declared known declarations → Genuine known (.interface name declarations)
  | intersection {members : List Shape} {site : Site} :
      site.Of known → site.node.kind = .intersectionType →
      site.shape = .ok (.intersection members site) → (∀ m ∈ members, Genuine known m) →
      Genuine known (.intersection members site)
  | reference {name : Text} {arguments : List Shape} {site : Site} :
      site.Of known → site.node.kind.tag? = some 2 →
      site.shape = .ok (.reference name arguments site) → (∀ a ∈ arguments, Genuine known a) →
      Genuine known (.reference name arguments site)

/-- Shapes without parts and sites. -/
inductive Atom : Shape → Prop where
  | primitive (name : Text) : Atom (.primitive name)
  | literal (value : LiteralValue) : Atom (.literal value)
  | verbatim (text : Text) : Atom (.verbatim text)

theorem Atom.genuine {known : SourceFile → Prop} {s : Shape} (h : s.Atom) : s.Genuine known := by
  cases h with
  | primitive name => exact .primitive name
  | literal value => exact .literal value
  | verbatim text => exact .verbatim text

end Shape

/-! ### Shapes of sites -/

namespace SourceFile

open Shape (Genuine)
open Outcome (bind_eq_ok map_eq_ok)

variable {known : SourceFile → Prop} {file : SourceFile} {s : Shape}

theorem atom_literalShape {n : Node} (h : file.literalShape n = .ok s) : s.Atom := by
  have numeric (x? : Option Double) :
      ((x?.map (Shape.literal ∘ .number)).getD (.verbatim (file.textOf n))).Atom := by
    cases x? with
    | none => exact .verbatim _
    | some x => exact .literal _
  unfold literalShape at h
  dsimp only at h
  split at h
  · cases h
    exact .verbatim _
  · split at h
    · obtain ⟨_, _, h⟩ := bind_eq_ok.mp h
      cases h
      exact .literal _
    · obtain ⟨x?, _, h⟩ := bind_eq_ok.mp h
      cases h
      exact numeric x?
    · cases h
      exact .literal _
    · cases h
      exact .literal _
    · cases h
      exact .primitive _
    · cases h
      exact .primitive _
    · obtain ⟨x?, _, h⟩ := bind_eq_ok.mp h
      cases h
      exact numeric x?
    · cases h
      exact .verbatim _

/-- The way to a part, where the parts before it are given. -/
theorem children_eq_of_cons {parent : Place} {before rest : List Node} {n : Node}
    (children : parent.node.children = before.reverse ++ n :: rest) :
    parent.node.children = (n :: before).reverse ++ rest := by
  rw [children, List.reverse_cons, List.append_assoc]
  rfl

/-- A part that is a token or a comment gives no member, one of the kind `flat` the members inside
it, and any other part one member. -/
theorem memberShapes_part {flat : Option Kind} {parent : Place} {before ns children : List Node}
    {kind : Kind} {role : Option Role} {start stop line : Nat} {ss : List Shape}
    (h : file.memberShapes flat parent before (.mk kind role start stop line children :: ns) =
      .ok ss) :
    ∃ first rest, ss = first ++ rest ∧
      file.memberShapes flat parent (.mk kind role start stop line children :: before) ns =
        .ok rest ∧
      (((!kind.isNamed || kind == .comment) = true ∧ first = []) ∨
        ((!kind.isNamed || kind == .comment) = false ∧ some kind = flat ∧
          file.memberShapes flat (.part parent before (.mk kind role start stop line children)) []
            children = .ok first) ∨
        ((!kind.isNamed || kind == .comment) = false ∧ some kind ≠ flat ∧
          ∃ s, file.shapeAt (.part parent before (.mk kind role start stop line children))
            (.mk kind role start stop line children) = .ok s ∧ first = [s])) := by
  rw [memberShapes] at h
  split at h
  · next skipped =>
    obtain ⟨_, none, h⟩ := bind_eq_ok.mp h
    obtain ⟨rest, hrest, h⟩ := bind_eq_ok.mp h
    cases none
    cases h
    exact ⟨[], rest, rfl, hrest, .inl ⟨skipped, rfl⟩⟩
  · next taken =>
    have taken' : (!kind.isNamed || kind == .comment) = false := Bool.eq_false_iff.mpr taken
    split at h
    · next same =>
      obtain ⟨first, hfirst, h⟩ := bind_eq_ok.mp h
      obtain ⟨rest, hrest, h⟩ := bind_eq_ok.mp h
      cases h
      exact ⟨first, rest, rfl, hrest, .inr (.inl ⟨taken', eq_of_beq same, hfirst⟩)⟩
    · next other =>
      obtain ⟨_, hfirst, h⟩ := bind_eq_ok.mp h
      obtain ⟨s, hs, rfl⟩ := map_eq_ok.mp hfirst
      obtain ⟨rest, hrest, h⟩ := bind_eq_ok.mp h
      cases h
      exact ⟨[s], rest, rfl, hrest, .inr (.inr ⟨taken', by simpa using other, s, hs, rfl⟩)⟩

/-- A part gives no member, the members inside it or one member, and the other parts follow. -/
theorem memberShapes_cons {flat : Option Kind} {parent : Place} {before ns children : List Node}
    {kind : Kind} {role : Option Role} {start stop line : Nat} {ss : List Shape}
    (h : file.memberShapes flat parent before (.mk kind role start stop line children :: ns) =
      .ok ss) :
    ∃ first rest, ss = first ++ rest ∧
      file.memberShapes flat parent (.mk kind role start stop line children :: before) ns =
        .ok rest ∧
      (first = [] ∨
        file.memberShapes flat (.part parent before (.mk kind role start stop line children)) []
          children = .ok first ∨
        ∃ s, file.shapeAt (.part parent before (.mk kind role start stop line children))
          (.mk kind role start stop line children) = .ok s ∧ first = [s]) := by
  obtain ⟨first, rest, eq, hrest, ⟨_, none⟩ | ⟨_, _, inside⟩ | ⟨_, _, one⟩⟩ := memberShapes_part h
  · exact ⟨first, rest, eq, hrest, .inl none⟩
  · exact ⟨first, rest, eq, hrest, .inr (.inl inside)⟩
  · exact ⟨first, rest, eq, hrest, .inr (.inr one)⟩

mutual

theorem genuine_shapeAt (hfile : known file) : (place : Place) → (n : Node) → place.node = n →
    file.root.Within place → (s : Shape) → file.shapeAt place n = .ok s → s.Genuine known
  | place, .mk kind role start stop line children, hn, within, s, h => by
    have site : Site.Of known ⟨file, place⟩ := ⟨hfile, within⟩
    have whole : Site.shape ⟨file, place⟩ = .ok s := by
      rw [Site.shape, Site.node, hn]
      exact h
    have parts : place.node.children = ([] : List Node).reverse ++ children := by
      rw [hn]
      rfl
    have node : (Site.mk file place).node.kind = kind := by
      rw [Site.node, hn]
      rfl
    unfold shapeAt at h
    split at h
    · exact genuine_firstShape hfile place [] children within parts s h
    · exact genuine_firstShape hfile place [] children within parts s h
    · cases h
      exact .primitive _
    · cases h
      exact .primitive _
    · cases h
      exact .primitive _
    · exact (atom_literalShape h).genuine
    · obtain ⟨members, hmembers, h⟩ := bind_eq_ok.mp h
      cases h
      exact .union (genuine_memberShapes hfile _ place [] children within parts members hmembers)
    · obtain ⟨members, hmembers, h⟩ := bind_eq_ok.mp h
      cases h
      exact .intersection site node whole
        (genuine_memberShapes hfile _ place [] children within parts members hmembers)
    · cases h
      exact .object site
    · cases h
      exact .reference site (by rw [node]; rfl) whole (by simp)
    · cases h
      exact .reference site (by rw [node]; rfl) whole (by simp)
    · obtain ⟨arguments, harguments, h⟩ := bind_eq_ok.mp h
      cases h
      exact .reference site (by rw [node]; rfl) whole
        (genuine_argumentShapes hfile place [] children within parts arguments harguments)
    · cases h
      exact .verbatim _

theorem genuine_firstShape (hfile : known file) : (parent : Place) → (before ns : List Node) →
    file.root.Within parent → parent.node.children = before.reverse ++ ns → (s : Shape) →
    file.firstShape parent before ns = .ok s → s.Genuine known
  | _, _, [], _, _, s, h => by
    cases h
    exact .primitive _
  | parent, before, n :: ns, within, children, s, h => by
    rw [firstShape] at h
    split at h
    · exact genuine_shapeAt hfile (.part parent before n) n rfl (.part within children) s h
    · exact genuine_firstShape hfile parent (n :: before) ns within
        (children_eq_of_cons children) s h

theorem genuine_memberShapes (hfile : known file) (flat : Option Kind) :
    (parent : Place) → (before ns : List Node) →
    file.root.Within parent → parent.node.children = before.reverse ++ ns → (ss : List Shape) →
    file.memberShapes flat parent before ns = .ok ss → ∀ s ∈ ss, s.Genuine known
  | _, _, [], _, _, ss, h => by
    cases h
    simp
  | parent, before, .mk kind role start stop line children :: ns, within, eq, ss, h => by
    obtain ⟨first, rest, rfl, hrest, hfirst⟩ := memberShapes_cons h
    have inside := Place.Within.part within eq
    have behind := children_eq_of_cons eq
    intro s hs
    rcases List.mem_append.mp hs with hs | hs
    · rcases hfirst with rfl | hfirst | ⟨one, hone, rfl⟩
      · cases hs
      · exact genuine_memberShapes hfile flat _ [] children inside rfl first hfirst s hs
      · rw [List.mem_singleton.mp hs]
        exact genuine_shapeAt hfile _ (.mk kind role start stop line children) rfl inside one hone
    · exact genuine_memberShapes hfile flat parent _ ns within behind rest hrest s hs

theorem genuine_argumentShapes (hfile : known file) : (parent : Place) → (before ns : List Node) →
    file.root.Within parent → parent.node.children = before.reverse ++ ns → (ss : List Shape) →
    file.argumentShapes parent before ns = .ok ss → ∀ s ∈ ss, s.Genuine known
  | _, _, [], _, _, ss, h => by
    cases h
    simp
  | parent, before, .mk kind role start stop line children :: ns, within, eq, ss, h => by
    rw [argumentShapes] at h
    split at h
    · exact genuine_memberShapes hfile none _ [] children (.part within eq) rfl ss h
    · exact genuine_argumentShapes hfile parent _ ns within (children_eq_of_cons eq) ss h

end

end SourceFile

theorem Site.genuine_shape {known : SourceFile → Prop} {site : Site} {s : Shape}
    (h : site.Of known) (found : site.shape = .ok s) : s.Genuine known :=
  SourceFile.genuine_shapeAt h.file site.place site.node rfl h.place s found

/-! ### Sizes -/

namespace Shape

mutual

/-- The number of shapes that make up a shape. -/
def size : Shape → Nat
  | .primitive _ => 1
  | .literal _ => 1
  | .union members => sizes members + 1
  | .intersection members _ => sizes members + 1
  | .object _ => 1
  | .record key value _ => key.size + value.size + 1
  | .interface _ _ => 1
  | .reference _ arguments _ => sizes arguments + 1
  | .verbatim _ => 1

def sizes : List Shape → Nat
  | [] => 0
  | s :: rest => s.size + sizes rest

end

theorem sizes_append (ss ts : List Shape) : sizes (ss ++ ts) = sizes ss + sizes ts := by
  induction ss with
  | nil => simp [sizes]
  | cons s ss ih => rw [List.cons_append, sizes, ih, sizes, Nat.add_assoc]

theorem Atom.size_eq {s : Shape} (h : s.Atom) : s.size = 1 := by cases h <;> rfl

theorem size_le_sizes {s : Shape} {ss : List Shape} (h : s ∈ ss) : s.size ≤ sizes ss := by
  obtain ⟨front, back, rfl⟩ := List.append_of_mem h
  rw [sizes_append, sizes]
  omega

mutual

theorem size_le_weight : (s : Shape) → s.size ≤ s.weight
  | .primitive _ | .literal _ | .verbatim _ => le_rfl
  | .object _ | .interface _ _ => by
    rw [size, weight]
    omega
  | .union members => by
    have inside := sizes_le_weights members
    rw [size, weight]
    omega
  | .intersection members _ => by
    have inside := sizes_le_weights members
    rw [size, weight]
    omega
  | .record key value _ => by
    have first := size_le_weight key
    have second := size_le_weight value
    rw [size, weight]
    omega
  | .reference _ arguments _ => by
    have inside := sizes_le_weights arguments
    rw [size, weight]
    omega

theorem sizes_le_weights : (ss : List Shape) → sizes ss ≤ weights ss
  | [] => le_rfl
  | s :: ss => by
    have first := size_le_weight s
    have rest := sizes_le_weights ss
    rw [sizes, weights]
    omega

end

end Shape

namespace SourceFile

open Outcome (bind_eq_ok map_eq_ok)

variable {file : SourceFile}

mutual

theorem size_shapeAt : (place : Place) → (n : Node) → (s : Shape) →
    file.shapeAt place n = .ok s → s.size ≤ n.size
  | place, .mk kind role start stop line children, s, h => by
    rw [Node.size]
    unfold shapeAt at h
    split at h
    · have first := size_firstShape place [] children s h
      omega
    · have first := size_firstShape place [] children s h
      omega
    · cases h
      simp [Shape.size]
    · cases h
      simp [Shape.size]
    · cases h
      simp [Shape.size]
    · rw [(atom_literalShape h).size_eq]
      omega
    · obtain ⟨members, hmembers, h⟩ := bind_eq_ok.mp h
      cases h
      have inside := sizes_memberShapes _ place [] children members hmembers
      rw [Shape.size]
      omega
    · obtain ⟨members, hmembers, h⟩ := bind_eq_ok.mp h
      cases h
      have inside := sizes_memberShapes _ place [] children members hmembers
      rw [Shape.size]
      omega
    · cases h
      simp [Shape.size]
    · cases h
      simp [Shape.size, Shape.sizes]
    · cases h
      simp [Shape.size, Shape.sizes]
    · obtain ⟨arguments, harguments, h⟩ := bind_eq_ok.mp h
      cases h
      have inside := sizes_argumentShapes place [] children arguments harguments
      rw [Shape.size]
      omega
    · cases h
      simp [Shape.size]

theorem size_firstShape : (parent : Place) → (before ns : List Node) → (s : Shape) →
    file.firstShape parent before ns = .ok s → s.size ≤ Node.sizes ns + 1
  | _, _, [], s, h => by
    cases h
    exact le_rfl
  | parent, before, n :: ns, s, h => by
    rw [Node.sizes]
    rw [firstShape] at h
    split at h
    · have first := size_shapeAt (.part parent before n) n s h
      omega
    · have rest := size_firstShape parent (n :: before) ns s h
      omega

theorem sizes_memberShapes (flat : Option Kind) : (parent : Place) → (before ns : List Node) →
    (ss : List Shape) → file.memberShapes flat parent before ns = .ok ss →
    Shape.sizes ss ≤ Node.sizes ns
  | _, _, [], ss, h => by
    cases h
    exact le_rfl
  | parent, before, .mk kind role start stop line children :: ns, ss, h => by
    obtain ⟨first, rest, rfl, hrest, hfirst⟩ := memberShapes_cons h
    have behind := sizes_memberShapes flat parent _ ns rest hrest
    have inside : Shape.sizes first ≤ Node.size (.mk kind role start stop line children) := by
      rcases hfirst with rfl | hfirst | ⟨one, hone, rfl⟩
      · exact Nat.zero_le _
      · have parts := sizes_memberShapes flat _ [] children first hfirst
        rw [Node.size]
        omega
      · exact size_shapeAt _ (.mk kind role start stop line children) one hone
    rw [Shape.sizes_append, Node.sizes]
    omega

theorem sizes_argumentShapes : (parent : Place) → (before ns : List Node) → (ss : List Shape) →
    file.argumentShapes parent before ns = .ok ss → Shape.sizes ss ≤ Node.sizes ns
  | _, _, [], ss, h => by
    cases h
    exact le_rfl
  | parent, before, .mk kind role start stop line children :: ns, ss, h => by
    rw [argumentShapes] at h
    rw [Node.sizes, Node.size]
    split at h
    · have inside := sizes_memberShapes none _ [] children ss h
      omega
    · have behind := sizes_argumentShapes parent _ ns ss h
      omega

end

end SourceFile

theorem Site.size_shape {known : SourceFile → Prop} {site : Site} {s : Shape} (h : site.Of known)
    (found : site.shape = .ok s) : s.size ≤ site.file.tree.size :=
  (SourceFile.size_shapeAt site.place site.node s found).trans (Place.size_le_root h.place)

end ParamSchema
