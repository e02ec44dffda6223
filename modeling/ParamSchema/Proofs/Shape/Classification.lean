import ParamSchema.Proofs.Shape.Keys
import ParamSchema.Shape.Leaves

/-!
The primitive kinds of a type by reachability. A type opens into the members of its unions that have
a value and into what its references stand for (`Resolver.Opens`). The text of a type is told by the
types that can be reached so (`Resolver.KindsBy`): the kinds of all of them, if each either has a
kind or opens further. The search refuses to open a reference below itself, and loses nothing by
it (`Resolver.typeText_follows_reachability`).
-/

namespace ParamSchema

/-! ### Types of source files -/

/-- A type of the files of a file system: what is written at a site, what a reference stands for in
a program of these files, and the parts of such types. -/
inductive Shape.Described (fs : FileSystem) : Shape → Prop where
  | atom {s : Shape} : s.Atom → Described fs s
  | written {site : Site} {s : Shape} :
      site.Of (SourceFile.ReadFrom fs) → site.shape = .ok s → Described fs s
  | target {p : Program} {extensions : List Text} {requested : List Path} {s t : Shape} :
      Program.load fs extensions requested = .ok p → Described fs s →
      p.target? s = .ok (some t) → Described fs t
  | unionMember {members : List Shape} {m : Shape} :
      Described fs (.union members) → m ∈ members → Described fs m
  | intersectionMember {members : List Shape} {site : Site} {m : Shape} :
      Described fs (.intersection members site) → m ∈ members → Described fs m
  | argument {name : Text} {arguments : List Shape} {site : Site} {a : Shape} :
      Described fs (.reference name arguments site) → a ∈ arguments → Described fs a
  | recordKey {key value : Shape} {site : Site} :
      Described fs (.record key value site) → Described fs key
  | recordValue {key value : Shape} {site : Site} :
      Described fs (.record key value site) → Described fs value

theorem Shape.Described.genuine {fs : FileSystem} {s : Shape} (h : s.Described fs) :
    s.Genuine (SourceFile.ReadFrom fs) := by
  induction h with
  | atom h => exact h.genuine
  | written site shape => exact Site.genuine_shape site shape
  | target loaded _ target ih =>
    exact Program.genuine_target (library_readFrom fs) (Program.of_load loaded) ih target
  | unionMember _ mem ih =>
    cases ih with
    | union inside => exact inside _ mem
  | intersectionMember _ mem ih =>
    cases ih with
    | intersection _ _ _ inside => exact inside _ mem
  | argument _ mem ih =>
    cases ih with
    | reference _ _ _ inside => exact inside _ mem
  | recordKey _ ih =>
    cases ih with
    | record key _ _ => exact key
  | recordValue _ ih =>
    cases ih with
    | record _ value _ => exact value

/-! ### Kinds by reachability -/

/-- The primitive kind of a type that opens no further. -/
def Shape.primitiveKind? : Shape → Option PrimitiveKind
  | .literal value => some value.kind
  | .primitive name => PrimitiveKind.ofText? name
  | _ => none

namespace Resolver

variable {r : Resolver} {s t u v : Shape}

/-- A union opens into its members but those without a value, a reference into what it stands
for. -/
inductive Opens (r : Resolver) : Shape → Shape → Prop where
  | member {members : List Shape} {m : Shape} :
      m ∈ members → m.isNullish = false → Opens r (.union members) m
  | target {s t : Shape} : r.target? s = .ok (some t) → Opens r s t

theorem Opens.spreads (step : r.Opens u v) : r.Spreads u v := by
  cases step with
  | member mem _ => exact .member mem
  | target found => exact .target found

/-- The types that a type opens into after any number of steps. -/
def Reaches (r : Resolver) : Shape → Shape → Prop := Relation.ReflTransGen r.Opens

/-- A literal, a primitive type with a kind, a union with a member that has a value, or a reference
that stands for something. -/
def Classifiable (r : Resolver) (u : Shape) : Prop :=
  (∃ kind, u.primitiveKind? = some kind) ∨ ∃ v, r.Opens u v

/-- A reference whose target cannot be represented. -/
def Fails (r : Resolver) (u : Shape) (cause : Overflow) : Prop := r.target? u = .error cause

/-- The text that reachability gives to a type: its kinds in increasing order, unless there are none
or something that can be reached is not classifiable. -/
def KindsBy (r : Resolver) (s : Shape) (text : Text) : Prop :=
  ((∃ u, r.Reaches s u ∧ ¬ r.Classifiable u) → text = txt "unknown") ∧
  ((∀ u, r.Reaches s u → r.Classifiable u) →
    ∃ names : List Text, names.Pairwise (fun a b => Text.less a b = true) ∧
      (∀ name, name ∈ names ↔
        ∃ u kind, r.Reaches s u ∧ u.primitiveKind? = some kind ∧ name = kind.text) ∧
      text = if names = [] then txt "unknown" else Text.joinWith (txt " | ") names)

/-! ### Steps towards the leaves -/

/-- The steps that there can be from a type: one to a leaf with a kind, some to the types that it
opens into, one to a failure, or one to a leaf without a kind. -/
inductive LeafSteps (r : Resolver) (u : Shape) : List (Shape ⊕ Except Overflow Leaf) → Prop where
  | kind {leaf : Leaf} {kind : PrimitiveKind} :
      leaf.kind? = some kind → u.primitiveKind? = some kind → (∀ v, ¬ r.Opens u v) →
      (∀ cause, ¬ r.Fails u cause) → LeafSteps r u [.inr (.ok leaf)]
  | opens {vs : List Shape} :
      vs ≠ [] → u.primitiveKind? = none → (∀ v, r.Opens u v ↔ v ∈ vs) →
      (∀ cause, ¬ r.Fails u cause) → LeafSteps r u (vs.map .inl)
  | fails {cause : Overflow} :
      u.primitiveKind? = none → (∀ v, ¬ r.Opens u v) → r.Fails u cause →
      LeafSteps r u [.inr (.error cause)]
  | other :
      u.primitiveKind? = none → (∀ v, ¬ r.Opens u v) → (∀ cause, ¬ r.Fails u cause) →
      LeafSteps r u [.inr (.ok .other)]

/-- What is neither a union nor a reference opens into nothing. -/
theorem shut (union : ∀ members, u ≠ .union members) (none : r.target? u = .ok none) :
    (∀ v, ¬ r.Opens u v) ∧ ∀ cause, ¬ r.Fails u cause := by
  refine ⟨?_, ?_⟩
  · intro v step
    cases step with
    | member => exact union _ rfl
    | target found =>
      rw [none] at found
      cases found
  · intro cause fails
    rw [Fails, none] at fails
    cases fails

theorem opens_union_iff {members : List Shape} :
    r.Opens (.union members) v ↔ v ∈ members.filter (!·.isNullish) := by
  rw [List.mem_filter, Bool.not_eq_true']
  constructor
  · intro step
    cases step with
    | member mem valued => exact ⟨mem, valued⟩
    | target found => cases r <;> cases found
  · rintro ⟨mem, valued⟩
    exact .member mem valued

theorem opens_reference_iff {name : Text} {arguments : List Shape} {site : Site} :
    r.Opens (.reference name arguments site) v ↔
      r.target? (.reference name arguments site) = .ok (some v) := by
  constructor
  · intro step
    cases step with
    | target found => exact found
  · exact .target

theorem not_opens_of_fails {cause : Overflow} (fails : r.Fails u cause) : ¬ r.Opens u v := by
  intro step
  rw [Fails] at fails
  cases step with
  | member => cases r <;> cases fails
  | target found =>
    rw [fails] at found
    cases found

theorem leafSteps_union {members : List Shape} :
    LeafSteps r (.union members) (r.leafStep (.union members)) := by
  have sound (cause : Overflow) : ¬ r.Fails (.union members) cause := by
    intro fails
    cases r <;> cases fails
  rw [leafStep]
  split
  · next empty =>
    refine .other rfl ?_ sound
    intro v step
    rw [opens_union_iff, empty] at step
    cases step
  · next some => exact .opens some rfl (fun v => opens_union_iff) sound

theorem leafSteps_reference {name : Text} {arguments : List Shape} {site : Site} :
    LeafSteps r (.reference name arguments site) (r.leafStep (.reference name arguments site)) := by
  rw [leafStep]
  split
  · next cause found => exact .fails rfl (fun v => not_opens_of_fails found) found
  · next found =>
    obtain ⟨opens, fails⟩ := shut (by simp) found
    exact .other rfl opens fails
  · next t found =>
    have only (v : Shape) : r.Opens (.reference name arguments site) v ↔ v ∈ [t] := by
      rw [opens_reference_iff, found, List.mem_singleton]
      simp [eq_comm]
    refine .opens (List.cons_ne_nil t []) rfl only ?_
    intro cause fails
    rw [Fails, found] at fails
    cases fails

theorem leafSteps_leafStep (r : Resolver) (u : Shape) : LeafSteps r u (r.leafStep u) := by
  cases u with
  | union members => exact leafSteps_union
  | reference name arguments site => exact leafSteps_reference
  | literal value =>
    obtain ⟨opens, fails⟩ := shut (r := r) (u := .literal value) (by simp)
      (target?_of_not_splits rfl)
    exact .kind rfl rfl opens fails
  | primitive name =>
    obtain ⟨opens, fails⟩ := shut (r := r) (u := .primitive name) (by simp)
      (target?_of_not_splits rfl)
    rw [leafStep]
    cases known : PrimitiveKind.ofText? name with
    | none => exact .other known opens fails
    | some kind => exact .kind rfl known opens fails
  | intersection | object | record | interface | verbatim =>
    refine .other rfl ?_ ?_
    · exact (shut (by simp) (target?_of_not_splits rfl)).1
    · exact (shut (by simp) (target?_of_not_splits rfl)).2

namespace LeafSteps

variable {steps : List (Shape ⊕ Except Overflow Leaf)} {cause : Overflow} {kind : PrimitiveKind}

theorem inl_mem_iff (h : LeafSteps r u steps) : .inl v ∈ steps ↔ r.Opens u v := by
  cases h with
  | kind _ _ opens _ => simp [opens]
  | opens _ _ opens _ => simp [opens]
  | fails _ opens _ => simp [opens]
  | other _ opens _ => simp [opens]

theorem error_mem_iff (h : LeafSteps r u steps) :
    .inr (.error cause) ∈ steps ↔ r.Fails u cause := by
  cases h with
  | kind _ _ _ fails => simp [fails]
  | opens _ _ _ fails => simp [fails]
  | fails _ _ found =>
    rw [Fails] at found
    simp [Fails, found, eq_comm]
  | other _ _ fails => simp [fails]

theorem kind_mem_iff (h : LeafSteps r u steps) :
    (∃ leaf, .inr (.ok leaf) ∈ steps ∧ leaf.kind? = some kind) ↔ u.primitiveKind? = some kind := by
  cases h with
  | kind leaf shape _ _ => simp [leaf, shape]
  | opens _ none _ _ => simp [none]
  | fails none _ _ => simp [none]
  | other none _ _ => simp [none, Leaf.kind?]

theorem other_mem_iff (h : LeafSteps r u steps) :
    (∃ leaf, .inr (.ok leaf) ∈ steps ∧ leaf.kind? = none) ↔
      ¬ r.Classifiable u ∧ ∀ cause, ¬ r.Fails u cause := by
  cases h with
  | kind leaf shape _ _ => simp [leaf, shape, Classifiable]
  | opens some none opens _ =>
    obtain ⟨v, hv⟩ := List.exists_mem_of_ne_nil _ some
    have classifiable : r.Classifiable u := .inr ⟨v, (opens v).mpr hv⟩
    simp [classifiable]
  | fails none opens fails =>
    rw [Fails] at fails
    simp [Fails, fails]
  | other none opens fails => simp [none, opens, fails, Leaf.kind?, Classifiable]

end LeafSteps

/-! ### Leaves by reachability -/

theorem leads_leafStep : Search.Leads r.leafStep = r.Opens := by
  funext u v
  exact propext (leafSteps_leafStep r u).inl_mem_iff

theorem size_lt_of_opens (none : u.token? = none) (step : r.Opens u v) : v.size < u.size := by
  cases step with
  | member mem _ =>
    rw [Shape.size]
    exact Nat.lt_succ_of_le (Shape.size_le_sizes mem)
  | target found =>
    obtain ⟨_, _, _, rfl⟩ := Program.reference_of_target (target?_base found)
    cases none

theorem bound_base {known : SourceFile → Prop} (hs : s.Genuine known) :
    (((r.base.filesFrom s).flatMap SourceFile.tokens).length + 1) *
      (s.weight + r.base.weight + 1) ≤ r.bound s := by
  cases r with
  | textual => exact Shape.bound_filesFrom hs
  | program p => exact Shape.bound_filesFrom hs

section

variable {known : SourceFile → Prop} (lib : Library known) (hr : r.Of known) (hs : s.Genuine known)

include lib hr hs

theorem keyed_leafStep : Search.Keyed Shape.token? r.leafStep (Shape.Near r.base s)
    ((r.base.filesFrom s).flatMap SourceFile.tokens) Shape.size (s.weight + r.base.weight) :=
  Shape.keyed hs hr lib
    (fun u v hu step => near_of_spreads lib hr hs hu (Opens.spreads (leads_leafStep ▸ step)))
    (fun alike => by cases alike <;> rfl)
    (fun none step => size_lt_of_opens none (leads_leafStep ▸ step))

/-- The leaves are those of all types that can be reached. -/
theorem mem_leaves_iff {x : Except Overflow Leaf} :
    x ∈ r.leaves s ↔ ∃ u, r.Reaches s u ∧ .inr x ∈ r.leafStep u := by
  rw [leaves, (keyed_leafStep lib hr hs).mem_along_iff (Shape.near_self hs) (bound_base hs),
    leads_leafStep]
  rfl

theorem error_mem_leaves_iff {cause : Overflow} :
    .error cause ∈ r.leaves s ↔ ∃ u, r.Reaches s u ∧ r.Fails u cause := by
  rw [mem_leaves_iff lib hr hs]
  exact exists_congr fun u => and_congr_right fun _ => (leafSteps_leafStep _ u).error_mem_iff

theorem kind_mem_leaves_iff {kind : PrimitiveKind} :
    (∃ leaf, .ok leaf ∈ r.leaves s ∧ leaf.kind? = some kind) ↔
      ∃ u, r.Reaches s u ∧ u.primitiveKind? = some kind := by
  simp only [mem_leaves_iff lib hr hs, ← (leafSteps_leafStep r _).kind_mem_iff]
  constructor
  · rintro ⟨leaf, ⟨u, reached, mem⟩, kind⟩
    exact ⟨u, reached, leaf, mem, kind⟩
  · rintro ⟨u, reached, leaf, mem, kind⟩
    exact ⟨leaf, ⟨u, reached, mem⟩, kind⟩

theorem other_mem_leaves_iff :
    (∃ leaf, .ok leaf ∈ r.leaves s ∧ leaf.kind? = none) ↔
      ∃ u, r.Reaches s u ∧ ¬ r.Classifiable u ∧ ∀ cause, ¬ r.Fails u cause := by
  simp only [mem_leaves_iff lib hr hs, ← (leafSteps_leafStep r _).other_mem_iff]
  constructor
  · rintro ⟨leaf, ⟨u, reached, mem⟩, kind⟩
    exact ⟨u, reached, leaf, mem, kind⟩
  · rintro ⟨u, reached, leaf, mem, kind⟩
    exact ⟨leaf, ⟨u, reached, mem⟩, kind⟩

end

/-! ### Kinds of leaves -/

/-- All leaves have kinds, one has none, or one is a failure. -/
theorem leafKinds_cases (leaves : List (Except Overflow Leaf)) :
    (∃ kinds, leafKinds leaves = .ok (some kinds) ∧
      (∀ x ∈ leaves, ∃ leaf kind, x = .ok leaf ∧ leaf.kind? = some kind) ∧
      ∀ kind, kind ∈ kinds ↔ ∃ leaf, .ok leaf ∈ leaves ∧ leaf.kind? = some kind) ∨
    (leafKinds leaves = .ok none ∧ ∃ leaf, .ok leaf ∈ leaves ∧ leaf.kind? = none) ∨
    ∃ cause, leafKinds leaves = .error cause ∧ .error cause ∈ leaves := by
  induction leaves with
  | nil => exact .inl ⟨[], rfl, by simp, by simp⟩
  | cons x leaves ih =>
    cases x with
    | error cause => exact .inr (.inr ⟨cause, rfl, List.mem_cons_self⟩)
    | ok leaf =>
      rw [leafKinds]
      cases found : leaf.kind? with
      | none => exact .inr (.inl ⟨rfl, leaf, List.mem_cons_self, found⟩)
      | some kind =>
        rcases ih with ⟨kinds, eq, all, mem⟩ | ⟨eq, odd, hodd, none⟩ | ⟨cause, eq, failure⟩
        · refine .inl ⟨kind :: kinds, by rw [eq]; rfl, ?_, ?_⟩
          · rintro x hx
            rcases List.mem_cons.mp hx with rfl | hx
            · exact ⟨leaf, kind, rfl, found⟩
            · exact all x hx
          · intro k
            rw [List.mem_cons, mem k]
            constructor
            · rintro (rfl | ⟨leaf', hleaf, hk⟩)
              · exact ⟨leaf, List.mem_cons_self, found⟩
              · exact ⟨leaf', List.mem_cons_of_mem _ hleaf, hk⟩
            · rintro ⟨leaf', hleaf, hk⟩
              rcases List.mem_cons.mp hleaf with same | hleaf
              · cases same
                exact .inl (Option.some.inj (hk.symm.trans found))
              · exact .inr ⟨leaf', hleaf, hk⟩
        · exact .inr (.inl ⟨by rw [eq]; rfl, odd, List.mem_cons_of_mem _ hodd, none⟩)
        · exact .inr (.inr ⟨cause, by rw [eq]; rfl, List.mem_cons_of_mem _ failure⟩)

/-- The text for kinds joins their names in increasing order. -/
theorem kindsText_eq (kinds : List PrimitiveKind) :
    ∃ names : List Text, names.Pairwise (fun a b => Text.less a b = true) ∧
      (∀ name, name ∈ names ↔ ∃ kind ∈ kinds, name = kind.text) ∧
      kindsText kinds = if names = [] then txt "unknown" else Text.joinWith (txt " | ") names := by
  have ordered : (PrimitiveKind.all.map PrimitiveKind.text).Pairwise
      (fun a b => Text.less a b = true) := by decide
  have listed (kind : PrimitiveKind) : kind ∈ PrimitiveKind.all := by cases kind <;> decide
  refine ⟨(PrimitiveKind.all.filter kinds.contains).map PrimitiveKind.text, ?_, ?_, ?_⟩
  · exact ordered.sublist (List.filter_sublist.map _)
  · intro name
    simp [listed, eq_comm]
  · rw [kindsText]
    split
    · next empty => simp [empty]
    · next some => rw [if_neg (by simpa using some)]

/-! ### The text of a type -/

/-- All types that can be reached are classifiable and give their kinds, one is not, or one
fails. -/
def TextCases (r : Resolver) (s : Shape) : Prop :=
  (∃ kinds, r.typeText s = .ok (kindsText kinds) ∧
    (∀ u, r.Reaches s u → r.Classifiable u ∧ ∀ cause, ¬ r.Fails u cause) ∧
    ∀ kind, kind ∈ kinds ↔ ∃ u, r.Reaches s u ∧ u.primitiveKind? = some kind) ∨
  (r.typeText s = .ok (txt "unknown") ∧
    ∃ u, r.Reaches s u ∧ ¬ r.Classifiable u ∧ ∀ cause, ¬ r.Fails u cause) ∨
  ∃ cause, r.typeText s = .error cause ∧ ∃ u, r.Reaches s u ∧ r.Fails u cause

theorem textCases {known : SourceFile → Prop} (lib : Library known) (hr : r.Of known)
    (hs : s.Genuine known) : r.TextCases s := by
  rcases leafKinds_cases (r.leaves s) with ⟨kinds, eq, all, mem⟩ | ⟨eq, none⟩ |
    ⟨cause, eq, failure⟩
  · refine .inl ⟨kinds, by rw [typeText, eq]; rfl, ?_, ?_⟩
    · intro u reached
      have sound (cause : Overflow) : ¬ r.Fails u cause := by
        intro fails
        have failure := (error_mem_leaves_iff lib hr hs).mpr ⟨u, reached, fails⟩
        obtain ⟨_, _, contra, _⟩ := all _ failure
        cases contra
      refine ⟨?_, sound⟩
      by_contra odd
      obtain ⟨leaf, found, none⟩ := (other_mem_leaves_iff lib hr hs).mpr ⟨u, reached, odd, sound⟩
      obtain ⟨_, _, same, some⟩ := all _ found
      cases same
      rw [none] at some
      cases some
    · intro kind
      rw [mem, kind_mem_leaves_iff lib hr hs]
  · exact .inr (.inl ⟨by rw [typeText, eq]; rfl, (other_mem_leaves_iff lib hr hs).mp none⟩)
  · refine .inr (.inr ⟨cause, by rw [typeText, eq]; rfl, ?_⟩)
    exact (error_mem_leaves_iff lib hr hs).mp failure

theorem typeText_cases {known : SourceFile → Prop} {p : Program} (lib : Library known)
    (hp : p.Of known) (hs : s.Genuine known) : (program p).TextCases s :=
  textCases lib hp hs

/-- The text of a type is the one that reachability gives, however aliases refer to one another.
There is one unless a reference that can be reached cannot be represented, and there is none when
such a reference is all that is not classifiable. -/
theorem typeText_follows_reachability {fs : FileSystem} {extensions : List Text}
    {requested : List Path} {p : Program} (loaded : Program.load fs extensions requested = .ok p)
    (described : s.Described fs) :
    ((∀ u cause, (program p).Reaches s u → ¬ (program p).Fails u cause) →
      ∃ text, (program p).typeText s = .ok text) ∧
    (∀ text, (program p).typeText s = .ok text → (program p).KindsBy s text) ∧
    (∀ cause, (program p).typeText s = .error cause →
      ∃ u, (program p).Reaches s u ∧ (program p).Fails u cause) ∧
    ((∃ u cause, (program p).Reaches s u ∧ (program p).Fails u cause) →
      (∀ u, (program p).Reaches s u →
        (program p).Classifiable u ∨ ∃ cause, (program p).Fails u cause) →
      ∃ cause, (program p).typeText s = .error cause) := by
  have cases := typeText_cases (library_readFrom fs) (Program.of_load loaded) described.genuine
  rcases cases with ⟨kinds, eq, all, mem⟩ | ⟨eq, u, reached, odd, sound⟩ |
    ⟨cause, eq, u, reached, fails⟩
  · refine ⟨fun _ => ⟨_, eq⟩, fun text h => ⟨?_, fun _ => ?_⟩, fun cause h => ?_, ?_⟩
    · rintro ⟨u, reached, odd⟩
      exact absurd (all u reached).1 odd
    · obtain ⟨names, ordered, named, joined⟩ := kindsText_eq kinds
      rw [eq] at h
      cases h
      refine ⟨names, ordered, ?_, joined⟩
      intro name
      simp only [named, mem]
      constructor
      · rintro ⟨kind, ⟨u, reached, found⟩, rfl⟩
        exact ⟨u, kind, reached, found, rfl⟩
      · rintro ⟨u, kind, reached, found, rfl⟩
        exact ⟨kind, ⟨u, reached, found⟩, rfl⟩
    · rw [eq] at h
      cases h
    · rintro ⟨u, cause, reached, fails⟩
      exact absurd fails ((all u reached).2 cause)
  · refine ⟨fun _ => ⟨_, eq⟩, fun text h => ⟨?_, ?_⟩, ?_, ?_⟩
    · intro _
      rw [eq] at h
      cases h
      rfl
    · intro all
      exact absurd (all u reached) odd
    · intro cause h
      rw [eq] at h
      cases h
    · intro _ all
      rcases all u reached with classifiable | ⟨cause, fails⟩
      · exact absurd classifiable odd
      · exact absurd fails (sound cause)
  · refine ⟨?_, ?_, ?_, fun _ _ => ⟨cause, eq⟩⟩
    · intro none
      exact absurd fails (none u cause reached)
    · intro text h
      rw [eq] at h
      cases h
    · intro cause' h
      rw [eq] at h
      cases h
      exact ⟨u, reached, fails⟩

/-- Two aliases that refer to each other have the kinds of both. -/
theorem typeText_mutual_aliases :
    let path : Path := ⟨false, [txt "a.ts"]⟩
    let fs := FileSystem.ofSource path "type A = B | 'x' | null; type B = A | 5"
    ∃ p s, Program.load fs [] [path] = .ok p ∧ s.Described fs ∧
      (program p).typeText s = .ok (txt "number | string") ∧
      (program p).KindsBy s (txt "number | string") := by
  intro path fs
  have run : ((Program.withAlias? fs path (txt "A")).map fun found =>
      found.2.shape >>= (program found.1).typeText) = some (.ok (txt "number | string")) := by
    decide +kernel
  obtain ⟨⟨p, value⟩, found, eq⟩ := Option.map_eq_some_iff.mp run
  obtain ⟨loaded, known⟩ := Program.withAlias?_eq_some found
  obtain ⟨s, shape, text⟩ := Outcome.bind_eq_ok.mp eq
  have described : s.Described fs := .written known shape
  exact ⟨p, s, loaded, described, text, (typeText_follows_reachability loaded described).2.1 _ text⟩

/-- An escape that is too large keeps a type from having a text, with no number that is. -/
theorem typeText_large_escape :
    let path : Path := ⟨false, [txt "a.ts"]⟩
    let fs := FileSystem.ofSource path "type A = B; type B = '\\u\x7b80000000\x7d'"
    ∃ p s, Program.load fs [] [path] = .ok p ∧ s.Described fs ∧
      (∀ u, (program p).Reaches s u → ¬ (program p).Fails u .number) ∧
      (program p).typeText s = .error .escape := by
  intro path fs
  have run : ((Program.withAlias? fs path (txt "A")).map fun found =>
      found.2.shape.map fun s =>
        (((program found.1).target? s).map fun _ => (), (program found.1).typeText s)) =
      some (.ok (.error .escape, .error .escape)) := by
    decide +kernel
  obtain ⟨⟨p, value⟩, found, eq⟩ := Option.map_eq_some_iff.mp run
  obtain ⟨loaded, known⟩ := Program.withAlias?_eq_some found
  obtain ⟨s, shape, both⟩ := Outcome.map_eq_ok.mp eq
  obtain ⟨failure, text⟩ := Prod.mk.inj both
  have target : (program p).target? s = .error .escape := by
    cases result : (program p).target? s with
    | error cause =>
      rw [result] at failure
      cases failure
      rfl
    | ok t? =>
      rw [result] at failure
      cases failure
  refine ⟨p, s, loaded, .written known shape, ?_, text⟩
  intro u reached fails
  rcases Relation.ReflTransGen.cases_head reached with rfl | ⟨v, step, _⟩
  · rw [Fails, target] at fails
    cases fails
  · exact not_opens_of_fails target step

end Resolver

end ParamSchema
