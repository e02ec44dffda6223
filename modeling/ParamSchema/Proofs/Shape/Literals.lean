import ParamSchema.Proofs.Shape.Target
import ParamSchema.Shape.Leaves
import ParamSchema.Shape.Written

/-!
Files whose literals can be represented (`SourceFile.literalsFit`). Each type that is written in
such a file has a shape, and refers to a type by name only where a name is written
(`Site.exists_shape`). The members of a body have names and types (`Site.exists_properties`), and
each reference leads somewhere or nowhere, but never fails (`Program.exists_target`).
-/

namespace ParamSchema

theorem Outcome.exists_of_isOk {ε α : Type} {x : Except ε α} (h : x.isOk = true) :
    ∃ a, x = .ok a := by
  cases x with
  | error e => cases h
  | ok a => exact ⟨a, rfl⟩

/-! ### Nodes of a tree -/

namespace Node

theorem mem_preorder_self (n : Node) : n ∈ n.preorder := by
  cases n
  exact List.mem_cons_self

theorem preorder_subset_preorders {n : Node} {ns : List Node} (h : n ∈ ns) :
    n.preorder ⊆ preorders ns := by
  induction ns with
  | nil => cases h
  | cons first ns ih =>
    rw [preorders]
    rcases List.mem_cons.mp h with rfl | h
    · exact List.subset_append_left _ _
    · exact List.subset_append_of_subset_right _ (ih h)

theorem preorder_subset {n c : Node} (h : c ∈ n.children) : c.preorder ⊆ n.preorder := by
  cases n
  exact List.subset_cons_of_subset _ (preorder_subset_preorders h)

theorem mem_children_of_child? {n c : Node} {role : Role} (h : n.child? role = some c) :
    c ∈ n.children := List.mem_of_find?_eq_some h

end Node

theorem Place.preorder_subset_of_within {root q : Place} (h : root.Within q) :
    q.node.preorder ⊆ root.node.preorder := by
  induction h with
  | root => exact List.Subset.refl _
  | @part parent before n rest _ children ih =>
    have inside : n ∈ parent.node.children := by simp [children]
    exact List.Subset.trans (Node.preorder_subset inside) ih

/-! ### Names in types -/

/-- Whether a node names a type. -/
def Kind.namesType (kind : Kind) : Bool :=
  [.typeIdentifier, .nestedTypeIdentifier, .genericType].contains kind

/-- Whether a type is named somewhere in a tree. -/
def Node.mentionsType (n : Node) : Bool := n.preorder.any (·.kind.namesType)

namespace Shape

mutual

/-- Whether a type is a reference or has one among the members of its unions. -/
def refers : Shape → Bool
  | .reference _ _ _ => true
  | .union members => anyRefers members
  | _ => false

def anyRefers : List Shape → Bool
  | [] => false
  | s :: rest => s.refers || anyRefers rest

end

theorem anyRefers_eq_any (ss : List Shape) : anyRefers ss = ss.any refers := by
  induction ss with
  | nil => rfl
  | cons s ss ih => rw [anyRefers, List.any_cons, ih]

theorem Atom.refers_eq {s : Shape} (h : s.Atom) : s.refers = false := by cases h <;> rfl

end Shape

/-! ### Literals -/

namespace SourceFile

open Outcome (bind_eq_ok)

/-- Whether what is read from a node as a literal can be represented. The value of a member of an
enumeration is read as a number, whatever it is. -/
def fits (file : SourceFile) (n : Node) : Bool :=
  match n.kind with
  | .string => (file.stringValue n).isOk
  | .number => (file.numberOf? n).isOk
  | .enumAssignment => (Numeral.literal? (file.textOf? (n.child? .value))).isOk
  | _ => true

/-- Whether all literals of a file can be represented. -/
def literalsFit (file : SourceFile) : Bool := file.tree.preorder.all file.fits

variable {file : SourceFile} {n : Node}

theorem exists_stringValue (kind : n.kind = .string) (h : file.fits n = true) :
    ∃ t, file.stringValue n = .ok t := by
  rw [fits, kind] at h
  exact Outcome.exists_of_isOk h

theorem exists_numberOf (kind : n.kind = .number) (h : file.fits n = true) :
    ∃ x?, file.numberOf? n = .ok x? := by
  rw [fits, kind] at h
  exact Outcome.exists_of_isOk h

theorem exists_negatedNumber (fit : ∀ m ∈ n.preorder, file.fits m = true) :
    ∃ x?, file.negatedNumber? n = .ok x? := by
  rw [negatedNumber?]
  split
  · next operand found =>
    split
    · next number =>
      have kind : operand.kind = .number := eq_of_beq (Bool.and_eq_true_iff.mp number).1
      have inside := Node.preorder_subset (Node.mem_children_of_child? found)
      obtain ⟨x?, hx⟩ := exists_numberOf kind (fit _ (inside operand.mem_preorder_self))
      exact ⟨_, bind_eq_ok.mpr ⟨x?, hx, rfl⟩⟩
    · exact ⟨none, rfl⟩
  · exact ⟨none, rfl⟩

theorem exists_literalShape (fit : ∀ m ∈ n.preorder, file.fits m = true) :
    ∃ s, file.literalShape n = .ok s := by
  unfold literalShape
  dsimp only
  split
  · exact ⟨_, rfl⟩
  · next inner found =>
    have inside := Node.preorder_subset (List.mem_of_find?_eq_some found)
    have first := fit inner (inside inner.mem_preorder_self)
    split
    · next kind =>
      obtain ⟨t, ht⟩ := exists_stringValue kind first
      exact ⟨_, bind_eq_ok.mpr ⟨t, ht, rfl⟩⟩
    · next kind =>
      obtain ⟨x?, hx⟩ := exists_numberOf kind first
      exact ⟨_, bind_eq_ok.mpr ⟨x?, hx, rfl⟩⟩
    · exact ⟨_, rfl⟩
    · exact ⟨_, rfl⟩
    · exact ⟨_, rfl⟩
    · exact ⟨_, rfl⟩
    · obtain ⟨x?, hx⟩ := exists_negatedNumber fun m mem => fit m (inside mem)
      exact ⟨_, bind_eq_ok.mpr ⟨x?, hx, rfl⟩⟩
    · exact ⟨_, rfl⟩

/-- A name that is written can be read. -/
theorem exists_propertyName {n? : Option Node} (fit : ∀ n ∈ n?, file.fits n = true) :
    ∃ name, file.propertyName n? = .ok name := by
  cases n? with
  | none => exact ⟨[], rfl⟩
  | some n =>
    rw [propertyName]
    split
    · next kind => exact exists_stringValue kind (fit n rfl)
    · next kind =>
      obtain ⟨x?, hx⟩ := exists_numberOf kind (fit n rfl)
      exact ⟨_, bind_eq_ok.mpr ⟨x?, hx, rfl⟩⟩
    · exact ⟨_, rfl⟩

/-! ### Types -/

mutual

/-- A type has a shape, without references if it names no types. -/
theorem exists_shapeAt : (place : Place) → (n : Node) →
    (∀ m ∈ n.preorder, file.fits m = true) →
    ∃ s, file.shapeAt place n = .ok s ∧
      ((∀ m ∈ n.preorder, m.kind.namesType = false) → s.refers = false)
  | place, .mk kind role start stop line children, fit => by
    have inside : ∀ m ∈ Node.preorders children, file.fits m = true :=
      fun m mem => fit m (List.mem_cons_of_mem _ mem)
    obtain ⟨first, hfirst, firstRefers⟩ := exists_firstShape place [] children inside
    unfold shapeAt
    split
    · exact ⟨first, hfirst, fun none => firstRefers fun m mem => none m (.tail _ mem)⟩
    · exact ⟨first, hfirst, fun none => firstRefers fun m mem => none m (.tail _ mem)⟩
    · exact ⟨_, rfl, fun _ => rfl⟩
    · exact ⟨_, rfl, fun _ => rfl⟩
    · exact ⟨_, rfl, fun _ => rfl⟩
    · obtain ⟨s, hs⟩ := exists_literalShape fit
      exact ⟨s, hs, fun _ => (atom_literalShape hs).refers_eq⟩
    · obtain ⟨members, hmembers, refers⟩ :=
        exists_memberShapes (some .unionType) place [] children inside
      refine ⟨.union members, bind_eq_ok.mpr ⟨members, hmembers, rfl⟩, ?_⟩
      intro none
      rw [Shape.refers, Shape.anyRefers_eq_any, List.any_eq_false]
      intro s mem
      rw [refers (fun m mem => none m (.tail _ mem)) s mem]
      exact Bool.false_ne_true
    · obtain ⟨members, hmembers, _⟩ :=
        exists_memberShapes (some .intersectionType) place [] children inside
      exact ⟨_, bind_eq_ok.mpr ⟨members, hmembers, rfl⟩, fun _ => rfl⟩
    · exact ⟨_, rfl, fun _ => rfl⟩
    · exact ⟨_, rfl, fun none => nomatch none _ List.mem_cons_self⟩
    · exact ⟨_, rfl, fun none => nomatch none _ List.mem_cons_self⟩
    · obtain ⟨arguments, harguments⟩ := exists_argumentShapes place [] children inside
      exact ⟨_, bind_eq_ok.mpr ⟨arguments, harguments, rfl⟩,
        fun none => nomatch none _ List.mem_cons_self⟩
    · exact ⟨_, rfl, fun _ => rfl⟩

theorem exists_firstShape : (parent : Place) → (before ns : List Node) →
    (∀ m ∈ Node.preorders ns, file.fits m = true) →
    ∃ s, file.firstShape parent before ns = .ok s ∧
      ((∀ m ∈ Node.preorders ns, m.kind.namesType = false) → s.refers = false)
  | _, _, [], _ => ⟨.any, rfl, fun _ => rfl⟩
  | parent, before, n :: ns, fit => by
    obtain ⟨fitFirst, fitRest⟩ := List.forall_mem_append.mp fit
    rw [firstShape]
    split
    · obtain ⟨s, hs, refers⟩ := exists_shapeAt (.part parent before n) n fitFirst
      exact ⟨s, hs, fun none => refers (List.forall_mem_append.mp none).1⟩
    · obtain ⟨s, hs, refers⟩ := exists_firstShape parent (n :: before) ns fitRest
      exact ⟨s, hs, fun none => refers (List.forall_mem_append.mp none).2⟩

theorem exists_memberShapes (flat : Option Kind) : (parent : Place) → (before ns : List Node) →
    (∀ m ∈ Node.preorders ns, file.fits m = true) →
    ∃ ss, file.memberShapes flat parent before ns = .ok ss ∧
      ((∀ m ∈ Node.preorders ns, m.kind.namesType = false) → ∀ s ∈ ss, s.refers = false)
  | _, _, [], _ => ⟨[], rfl, fun _ => by simp⟩
  | parent, before, .mk kind role start stop line children :: ns, fit => by
    obtain ⟨fitFirst, fitRest⟩ := List.forall_mem_append.mp fit
    obtain ⟨rest, hrest, restRefers⟩ := exists_memberShapes flat parent
      (.mk kind role start stop line children :: before) ns fitRest
    rw [memberShapes]
    split
    · refine ⟨rest, bind_eq_ok.mpr ⟨[], rfl, bind_eq_ok.mpr ⟨rest, hrest, rfl⟩⟩, ?_⟩
      intro none
      exact restRefers (List.forall_mem_append.mp none).2
    · split
      · obtain ⟨first, hfirst, refers⟩ := exists_memberShapes flat
          (.part parent before (.mk kind role start stop line children)) [] children
          fun m mem => fitFirst m (.tail _ mem)
        refine ⟨first ++ rest,
          bind_eq_ok.mpr ⟨first, hfirst, bind_eq_ok.mpr ⟨rest, hrest, rfl⟩⟩, ?_⟩
        intro none
        obtain ⟨noneFirst, noneRest⟩ := List.forall_mem_append.mp none
        exact List.forall_mem_append.mpr
          ⟨refers fun m mem => noneFirst m (.tail _ mem), restRefers noneRest⟩
      · obtain ⟨s, hs, refers⟩ := exists_shapeAt
          (.part parent before (.mk kind role start stop line children))
          (.mk kind role start stop line children) fitFirst
        refine ⟨s :: rest, bind_eq_ok.mpr ⟨[s], Outcome.map_eq_ok.mpr ⟨s, hs, rfl⟩,
          bind_eq_ok.mpr ⟨rest, hrest, rfl⟩⟩, ?_⟩
        intro none
        obtain ⟨noneFirst, noneRest⟩ := List.forall_mem_append.mp none
        exact List.forall_mem_cons.mpr ⟨refers noneFirst, restRefers noneRest⟩

theorem exists_argumentShapes : (parent : Place) → (before ns : List Node) →
    (∀ m ∈ Node.preorders ns, file.fits m = true) →
    ∃ ss, file.argumentShapes parent before ns = .ok ss
  | _, _, [], _ => ⟨[], rfl⟩
  | parent, before, .mk kind role start stop line children :: ns, fit => by
    obtain ⟨fitFirst, fitRest⟩ := List.forall_mem_append.mp fit
    rw [argumentShapes]
    split
    · obtain ⟨ss, hss, _⟩ := exists_memberShapes none _ [] children
        fun m mem => fitFirst m (.tail _ mem)
      exact ⟨ss, hss⟩
    · exact exists_argumentShapes parent _ ns fitRest

end

/-! ### Enumerations -/

theorem exists_enumShapes (next : Double) {members : List Node}
    (fit : ∀ m ∈ Node.preorders members, file.fits m = true) :
    ∃ ss, file.enumShapes next members = .ok ss := by
  induction members generalizing next with
  | nil => exact ⟨[], rfl⟩
  | cons member rest ih =>
    obtain ⟨fitFirst, fitRest⟩ := List.forall_mem_append.mp fit
    have self := fitFirst member member.mem_preorder_self
    rw [enumShapes]
    split
    · next kind =>
      dsimp only
      split
      · next string =>
        obtain ⟨value, hvalue, kind⟩ := (Option.any_eq_true ..).mp string
        have inside := Node.preorder_subset (Node.mem_children_of_child? hvalue)
        obtain ⟨t, ht⟩ :=
          exists_stringValue (eq_of_beq kind) (fitFirst _ (inside value.mem_preorder_self))
        obtain ⟨ss, hss⟩ := ih _ fitRest
        rw [hvalue]
        exact ⟨_, bind_eq_ok.mpr ⟨t, ht, bind_eq_ok.mpr ⟨ss, hss, rfl⟩⟩⟩
      · have number : ∃ x?, Numeral.literal? (file.textOf? (member.child? .value)) = .ok x? := by
          rw [fits, kind] at self
          exact Outcome.exists_of_isOk self
        obtain ⟨x?, hx⟩ := number
        cases x? with
        | none =>
          obtain ⟨ss, hss⟩ := ih _ fitRest
          exact ⟨_, bind_eq_ok.mpr ⟨none, hx, bind_eq_ok.mpr ⟨ss, hss, rfl⟩⟩⟩
        | some x =>
          obtain ⟨ss, hss⟩ := ih _ fitRest
          exact ⟨_, bind_eq_ok.mpr ⟨some x, hx, bind_eq_ok.mpr ⟨ss, hss, rfl⟩⟩⟩
    · obtain ⟨ss, hss⟩ := ih _ fitRest
      exact ⟨_, bind_eq_ok.mpr ⟨ss, hss, rfl⟩⟩
    · obtain ⟨ss, hss⟩ := ih _ fitRest
      exact ⟨_, bind_eq_ok.mpr ⟨ss, hss, rfl⟩⟩
    · exact ih next fitRest

theorem exists_enumShape {declaration : Node}
    (fit : ∀ m ∈ declaration.preorder, file.fits m = true) :
    ∃ s, file.enumShape declaration = .ok s := by
  have inside : ∀ m ∈ Node.preorders (((declaration.child? .body).map Node.children).getD []),
      file.fits m = true := by
    cases body : declaration.child? .body with
    | none => simp [Node.preorders]
    | some n =>
      intro m mem
      apply fit m
      apply Node.preorder_subset (Node.mem_children_of_child? body)
      cases n
      exact List.mem_cons_of_mem _ mem
  obtain ⟨ss, hss⟩ := exists_enumShapes (Double.zero false) inside
  exact ⟨_, bind_eq_ok.mpr ⟨ss, hss, rfl⟩⟩

end SourceFile

/-! ### Sites -/

namespace Site

open Outcome (bind_eq_ok)

variable {known : SourceFile → Prop} {site member body : Site}

/-- What is read from a site of a file whose literals fit. -/
theorem fits_preorder (hs : site.Of known) (fit : site.file.literalsFit = true) :
    ∀ n ∈ site.node.preorder, site.file.fits n = true := by
  intro n mem
  exact List.all_eq_true.mp fit n (Place.preorder_subset_of_within hs.place mem)

theorem exists_shape (hs : site.Of known) (fit : site.file.literalsFit = true) :
    ∃ s, site.shape = .ok s ∧ (site.node.mentionsType = false → s.refers = false) := by
  obtain ⟨s, shape, refers⟩ :=
    SourceFile.exists_shapeAt site.place site.node (fits_preorder hs fit)
  refine ⟨s, shape, ?_⟩
  intro none
  apply refers
  intro n mem
  simpa using List.any_eq_false.mp none n mem

theorem file_of_child? {role : Role} {t : Site} (h : site.child? role = some t) :
    t.file = site.file := by
  obtain ⟨_, _, rfl⟩ := Option.map_eq_some_iff.mp h
  rfl

/-- The property of a member has the type written for it, or the text of a method. -/
theorem shape_of_property? {q : Property} (h : member.property? = .ok (some q)) :
    Site.shape? (member.child? .type) = .ok q.shape ∨ q.shape = .verbatim member.text := by
  rw [property?] at h
  split at h
  · obtain ⟨shape, hshape, h⟩ := bind_eq_ok.mp h
    obtain ⟨name, _, h⟩ := bind_eq_ok.mp h
    cases h
    exact .inl hshape
  · obtain ⟨name, _, h⟩ := bind_eq_ok.mp h
    cases h
    exact .inr rfl
  · cases h

theorem exists_property (hm : member.Of known) (fit : member.file.literalsFit = true) :
    ∃ q?, member.property? = .ok q? := by
  have name : ∃ name, member.file.propertyName (member.node.child? .name) = .ok name := by
    apply SourceFile.exists_propertyName
    intro n found
    have inside := Node.preorder_subset (Node.mem_children_of_child? found)
    exact fits_preorder hm fit n (inside n.mem_preorder_self)
  obtain ⟨name, hname⟩ := name
  rw [property?]
  split
  · have shape : ∃ s, Site.shape? (member.child? .type) = .ok s := by
      cases type : member.child? .type with
      | none => exact ⟨.any, rfl⟩
      | some t =>
        obtain ⟨s, shape, _⟩ := exists_shape (hm.child? type) (file_of_child? type ▸ fit)
        exact ⟨s, shape⟩
    obtain ⟨s, hs⟩ := shape
    exact ⟨_, bind_eq_ok.mpr ⟨s, hs, bind_eq_ok.mpr ⟨name, hname, rfl⟩⟩⟩
  · exact ⟨_, bind_eq_ok.mpr ⟨name, hname, rfl⟩⟩
  · exact ⟨none, rfl⟩

/-- The properties of a body have genuine types, without references if the members name no
types. -/
theorem exists_properties (hs : body.Of known) (fit : body.file.literalsFit = true) :
    ∃ ps, body.properties = .ok ps ∧ ∀ q ∈ ps, q.shape.Genuine known ∧
      ((∀ m ∈ body.named, ∀ t, m.child? .type = some t → t.node.mentionsType = false) →
        q.shape.refers = false) := by
  have parts {m : Site} (hm : m ∈ body.named) : m.Of known ∧ m.file.literalsFit = true := by
    obtain ⟨_, _, rfl⟩ := List.mem_map.mp hm
    exact ⟨hs.named hm, fit⟩
  cases result : body.named.mapM property? with
  | error cause =>
    obtain ⟨m, hm, fails⟩ := Outcome.exists_of_mapM_eq_error result
    obtain ⟨_, found⟩ := exists_property (parts hm).1 (parts hm).2
    rw [fails] at found
    cases found
  | ok found =>
    refine ⟨found.filterMap id, bind_eq_ok.mpr ⟨found, result, rfl⟩, ?_⟩
    intro q hq
    obtain ⟨_, hq, rfl⟩ := List.mem_filterMap.mp hq
    obtain ⟨m, hm, property⟩ := (Outcome.mem_of_mapM_eq_ok result _).mp hq
    rcases shape_of_property? property with shape | text
    · cases type : m.child? .type with
      | none =>
        rw [type] at shape
        rw [← Except.ok.inj shape]
        exact ⟨.primitive _, fun _ => rfl⟩
      | some t =>
        rw [type] at shape
        obtain ⟨s, hs, refers⟩ := exists_shape ((parts hm).1.child? type)
          (file_of_child? type ▸ (parts hm).2)
        obtain rfl : s = q.shape := Except.ok.inj (hs.symm.trans shape)
        exact ⟨genuine_shape ((parts hm).1.child? type) hs, fun none => refers (none m hm t type)⟩
    · rw [text]
      exact ⟨.verbatim _, fun _ => rfl⟩

end Site

/-! ### What references stand for -/

section

open Outcome (bind_eq_ok)

variable {known : SourceFile → Prop} (fit : ∀ file, known file → file.literalsFit = true)

include fit

theorem Shape.exists_ofDeclarations (name : Text) {declarations : List Site}
    (gathered : Gathered known declarations) :
    ∃ t?, Shape.ofDeclarations name declarations = .ok t? := by
  rcases gathered with rfl | ⟨file, scope, name', hf, within, _, hd⟩
  · exact ⟨none, rfl⟩
  · cases declarations with
    | nil => exact ⟨none, rfl⟩
    | cons first rest =>
      have site : first.Of known := .declaration hf within (hd ▸ List.mem_cons_self)
      have fits := fit first.file site.file
      rw [Shape.ofDeclarations]
      split
      · cases value : first.child? .value with
        | none => exact ⟨_, rfl⟩
        | some v =>
          obtain ⟨s, shape, _⟩ :=
            Site.exists_shape (site.child? value) (Site.file_of_child? value ▸ fits)
          exact ⟨_, bind_eq_ok.mpr ⟨s, shape, rfl⟩⟩
      · exact ⟨_, rfl⟩
      · obtain ⟨s, shape⟩ := SourceFile.exists_enumShape (Site.fits_preorder site fits)
        exact ⟨_, bind_eq_ok.mpr ⟨s, shape, rfl⟩⟩
      · exact ⟨none, rfl⟩

/-- Every reference leads somewhere or nowhere. -/
theorem Program.exists_target {p : Program} (lib : Library known) (hp : p.Of known) {s : Shape}
    (hs : s.Genuine known) : ∃ t?, p.target? s = .ok t? := by
  cases hs with
  | @reference name arguments site hsite _ _ _ =>
    have declared :=
      Shape.exists_ofDeclarations fit name (gathered_typeDeclarations lib hp hsite name)
    unfold target?
    dsimp only
    split
    · split
      · exact ⟨_, rfl⟩
      · exact declared
    · split
      · exact ⟨_, rfl⟩
      · exact declared
    · exact declared
  | _ => exact ⟨none, rfl⟩

end

/-! ### Enumerations with a value that does not fit -/

/-- The enumeration that a reference stands for. -/
def Program.enumeration? (p : Program) : Shape → Option Site
  | .reference name [] site =>
    (p.typeDeclarations name site).head?.filter (·.node.kind == .enumDeclaration)
  | _ => none

theorem Program.target?_of_enumeration? {p : Program} {s : Shape} {d : Site}
    (h : p.enumeration? s = some d) : p.target? s = (d.file.enumShape d.node).map some := by
  cases s with
  | reference name arguments site =>
    cases arguments with
    | nil =>
      obtain ⟨first, kind⟩ := Option.filter_eq_some_iff.mp h
      obtain ⟨rest, found⟩ := List.head?_eq_some_iff.mp first
      show Shape.ofDeclarations name (p.typeDeclarations name site) = _
      rw [found, Shape.ofDeclarations, eq_of_beq kind]
      rfl
    | cons => cases h
  | _ => cases h

namespace SourceFile

variable {file : SourceFile} {cause : Overflow}

/-- The text of a node by its bytes. -/
theorem textOf_eq (file : SourceFile) (n : Node) :
    file.textOf n = Text.ofChars
      (Utf8.decode ((file.bytes.data.toList.drop n.start).take (n.stop - n.start))) := by
  rw [textOf, sliceOf, ByteArray.data_extract, Array.toList_extract, List.extract_eq_take_drop]

/-- The value that is written for the first member of an enumeration, if it is no string. -/
def firstValue? : List Node → Option Node
  | [] => none
  | n :: rest =>
    if n.kind == .enumAssignment then (n.child? .value).filter (·.kind != .string)
    else if n.kind == .propertyIdentifier || n.kind == .string then none
    else firstValue? rest

theorem enumShapes_of_firstValue? {members : List Node} {value : Node}
    (h : firstValue? members = some value)
    (large : Numeral.literal? (file.textOf value) = .error cause) (next : Double) :
    file.enumShapes next members = .error cause := by
  induction members with
  | nil => cases h
  | cons n rest ih =>
    rw [firstValue?] at h
    rw [enumShapes]
    split
    · next kind =>
      rw [kind] at h
      obtain ⟨given, other⟩ := Option.filter_eq_some_iff.mp h
      have number : value.kind ≠ .string := by simpa using other
      simp only [given, Option.any_some, beq_eq_false_iff_ne.mpr number, textOf?, Option.map_some,
        Option.getD_some, large]
      rfl
    · next kind =>
      rw [kind] at h
      cases h
    · next kind =>
      rw [kind] at h
      cases h
    · next assigned word string =>
      simp only [beq_eq_false_iff_ne.mpr assigned, beq_eq_false_iff_ne.mpr word,
        beq_eq_false_iff_ne.mpr string] at h
      exact ih h

end SourceFile

/-- The value that is written for the first member of the enumeration that a reference stands for,
with its file. -/
def Program.firstValue? (p : Program) (s : Shape) : Option (SourceFile × Node) :=
  (p.enumeration? s).bind fun d =>
    (SourceFile.firstValue? (((d.node.child? .body).map Node.children).getD [])).map (d.file, ·)

/-- A reference to an enumeration fails if the value of its first member is too large. -/
theorem Program.target?_of_firstValue? {p : Program} {s : Shape} {file : SourceFile} {value : Node}
    {cause : Overflow} (h : p.firstValue? s = some (file, value))
    (large : Numeral.literal? (file.textOf value) = .error cause) : p.target? s = .error cause := by
  obtain ⟨d, enumeration, h⟩ := Option.bind_eq_some_iff.mp h
  obtain ⟨_, first, ⟨⟩⟩ := Option.map_eq_some_iff.mp h
  rw [target?_of_enumeration? enumeration, SourceFile.enumShape,
    SourceFile.enumShapes_of_firstValue? first large]
  rfl

/-- Where the first member of a union fails, no values are listed. -/
theorem Resolver.listedValues_of_first {r : Resolver} {s : Shape} {rest : List Shape}
    {cause : Overflow} (fails : r.target? s = .error cause) :
    r.listedValues (.union (s :: rest)) = .error cause := by
  obtain ⟨name, arguments, site, rfl⟩ :
      ∃ name arguments site, s = .reference name arguments site := by
    cases s with
    | reference name arguments site => exact ⟨name, arguments, site, rfl⟩
    | _ => cases r <;> cases fails
  obtain ⟨n, bound⟩ : ∃ n, r.bound (.union (.reference name arguments site :: rest)) = n + 2 :=
    Nat.exists_eq_add_of_le' (Nat.mul_le_mul (Nat.le_add_left 2 _) (Nat.le_add_left 1 _))
  have first : ∃ behind, r.leaves (.union (.reference name arguments site :: rest)) =
      .error cause :: behind := by
    rw [leaves, bound]
    simp [Search.along, leafStep, Shape.isNullish, Shape.token?, fails]
  obtain ⟨behind, leaves⟩ := first
  rw [listedValues, leaves]
  rfl

/-- Whether a union begins with an enumeration whose first value is too large for a number. The
value is told by its bytes, which are cut out of a list in fewer steps. -/
def Program.beginsOversized (p : Program) : Shape → Bool
  | .union (s :: _) => (p.firstValue? s).any fun (file, value) =>
    Numeral.literal? (Text.ofChars (Utf8.decode
      ((file.bytes.data.toList.drop value.start).take (value.stop - value.start)))) ==
        .error .number
  | _ => false

theorem Program.listedValues_of_beginsOversized {p : Program} {s : Shape}
    (h : p.beginsOversized s = true) :
    (Resolver.program p).listedValues s = .error .number := by
  cases s with
  | union members =>
    cases members with
    | nil => cases h
    | cons s rest =>
      obtain ⟨⟨file, value⟩, first, large⟩ := (Option.any_eq_true ..).mp h
      refine Resolver.listedValues_of_first (target?_of_firstValue? first ?_)
      rw [SourceFile.textOf_eq]
      exact eq_of_beq large
  | _ => cases h

end ParamSchema
