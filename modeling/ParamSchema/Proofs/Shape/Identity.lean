import Mathlib.Algebra.Order.BigOperators.Group.List
import Mathlib.Algebra.Order.Ring.Nat
import ParamSchema.Proofs.Search.Along
import ParamSchema.Proofs.Shape.Target
import ParamSchema.Resolver

/-!
The identity of shapes. In a library a token tells the site that it belongs to
(`Site.eq_of_token`), so genuine shapes with the same token are the same, up to the name under
which an interface was found (`Shape.alike_of_token`). There are no more tokens than nodes in the
files, which gives the search along ways its bound (`Shape.keyed`).
-/

namespace ParamSchema

/-! ### Tokens of files -/

namespace SourceFile

/-- The tokens of all nodes of a file that types are identified by. -/
def tokens (file : SourceFile) : List Token :=
  (file.tree.preorder.filterMap Node.mark?).map fun m => ⟨m.1, file.path, m.2.1, m.2.2⟩

theorem length_tokens (file : SourceFile) : file.tokens.length ≤ file.tree.size := by
  rw [tokens, List.length_map, ← Node.length_preorder]
  exact List.length_filterMap_le _ _

end SourceFile

namespace Site

variable {known : SourceFile → Prop} {s s' : Site} {tag : Nat}

theorem mark?_eq (h : s.node.kind.tag? = some tag) :
    s.place.node.mark? = some (tag, s.node.start, s.node.stop) := by
  rw [Node.mark?]
  rw [Site.node] at h
  rw [h]
  rfl

theorem token_mem (hs : s.Of known) (h : s.node.kind.tag? = some tag) :
    s.token tag ∈ s.file.tokens := by
  refine List.mem_map.mpr ⟨(tag, s.node.start, s.node.stop), ?_, rfl⟩
  have walked := Place.mem_walk_iff.mpr hs.place
  have inside : s.place.node ∈ s.file.tree.preorder := by
    rw [show s.file.tree = s.file.root.node from rfl, ← Place.map_node_walk]
    exact List.mem_map_of_mem walked
  exact List.mem_filterMap.mpr ⟨s.place.node, inside, mark?_eq h⟩

/-- In a library a token tells its site. -/
theorem eq_of_token (lib : Library known) (hs : s.Of known) (hs' : s'.Of known)
    (h : s.node.kind.tag? = some tag) (h' : s'.node.kind.tag? = some tag)
    (same : s.token tag = s'.token tag) : s = s' := by
  obtain ⟨file, place⟩ := s
  obtain ⟨file', place'⟩ := s'
  simp only [token, Token.mk.injEq, true_and] at same
  obtain ⟨path, start, stop⟩ := same
  obtain rfl : file = file' := lib.same hs.file hs'.file path
  have mark := mark?_eq h
  have mark' := mark?_eq h'
  rw [← start, ← stop] at mark'
  have walked := Place.mem_walk_iff.mpr hs.place
  have walked' := Place.mem_walk_iff.mpr hs'.place
  have distinct : (file.root.node.preorder.filterMap Node.mark?).Nodup := lib.distinct hs.file
  obtain rfl : place = place' := Place.eq_of_mark distinct walked walked' mark mark'
  rfl

end Site

/-! ### Shapes with the same token -/

section

variable {known : SourceFile → Prop}

theorem Declared.of_mem {declarations : List Site} (h : Declared known declarations) {d : Site}
    (hd : d ∈ declarations) : d.Of known ∧ d.node.kind = .interfaceDeclaration := by
  obtain ⟨_, file, scope, name, hf, within, _, rfl⟩ := h
  obtain ⟨found, kind⟩ := List.mem_filter.mp hd
  exact ⟨.declaration hf within found, eq_of_beq kind⟩

/-- The first declaration of an interface tells its scope and its name, and so all of them. -/
theorem Declared.eq_of_head {first : Site} {rest rest' : List Site}
    (h : Declared known (first :: rest)) (h' : Declared known (first :: rest')) : rest = rest' := by
  obtain ⟨_, file, scope, name, _, _, isScope, eq⟩ := h
  obtain ⟨_, file', scope', name', _, _, isScope', eq'⟩ := h'
  have mem : first ∈ file.declarationsIn .type name scope :=
    List.mem_of_mem_filter (eq ▸ List.mem_cons_self)
  have mem' : first ∈ file'.declarationsIn .type name' scope' :=
    List.mem_of_mem_filter (eq' ▸ List.mem_cons_self)
  obtain ⟨rfl, ⟨q, hq, place⟩, rfl⟩ := SourceFile.mem_declarationsIn mem
  obtain ⟨rfl, ⟨q', hq', place'⟩, rfl⟩ := SourceFile.mem_declarationsIn mem'
  have inScope := Place.scope?_declaration isScope hq
  have inScope' := Place.scope?_declaration isScope' hq'
  rw [← place] at inScope
  rw [← place', inScope] at inScope'
  obtain rfl := Option.some.inj inScope'
  exact (List.cons.inj (eq.trans eq'.symm)).2

namespace Shape

/-- Shapes that differ at most in the name under which an interface was found. -/
inductive Alike : Shape → Shape → Prop where
  | refl (s : Shape) : Alike s s
  | interface (name name' : Text) (declarations : List Site) :
      Alike (.interface name declarations) (.interface name' declarations)

variable {s t : Shape} {k : Token}

/-- A genuine shape with a token is what the site of the token writes, or the interface whose first
declaration is there. -/
theorem Genuine.token_site (hs : s.Genuine known) (h : s.token? = some k) :
    ∃ σ tag, k = σ.token tag ∧ σ.Of known ∧ σ.node.kind.tag? = some tag ∧
      (tag ≠ 1 ∧ σ.shape = .ok s ∨
        tag = 1 ∧ ∃ name rest, s = .interface name (σ :: rest) ∧ Declared known (σ :: rest)) := by
  cases hs with
  | @intersection members σ site kind shape _ =>
    have tag : σ.node.kind.tag? = some 0 := by rw [kind]; rfl
    exact ⟨σ, 0, (Option.some.inj h).symm, site, tag, .inl ⟨by decide, shape⟩⟩
  | @interface name declarations declared =>
    cases declarations with
    | nil => cases h
    | cons first rest =>
      obtain ⟨site, kind⟩ := declared.of_mem List.mem_cons_self
      have tag : first.node.kind.tag? = some 1 := by rw [kind]; rfl
      exact ⟨first, 1, (Option.some.inj h).symm, site, tag, .inr ⟨rfl, name, rest, rfl, declared⟩⟩
  | @reference name arguments σ site tag shape _ =>
    exact ⟨σ, 2, (Option.some.inj h).symm, site, tag, .inl ⟨by decide, shape⟩⟩
  | _ => cases h

/-- In a library a token tells its shape. -/
theorem alike_of_token (lib : Library known) (hs : s.Genuine known) (ht : t.Genuine known)
    (ks : s.token? = some k) (kt : t.token? = some k) : Alike s t := by
  obtain ⟨σ, tag, rfl, site, tagged, written⟩ := hs.token_site ks
  obtain ⟨σ', tag', same, site', tagged', written'⟩ := ht.token_site kt
  obtain rfl : tag = tag' := congrArg Token.tag same
  obtain rfl := Site.eq_of_token lib site site' tagged tagged' same
  rcases written with ⟨other, shape⟩ | ⟨one, name, rest, rfl, declared⟩
  · rcases written' with ⟨_, shape'⟩ | ⟨one, _⟩
    · rw [shape] at shape'
      exact Except.ok.inj shape' ▸ .refl _
    · exact absurd one other
  · rcases written' with ⟨other, _⟩ | ⟨_, name', rest', rfl, declared'⟩
    · exact absurd one other
    · rw [declared.eq_of_head declared']
      exact .interface _ _ _

/-- The token of a genuine shape is one of a known file. -/
theorem token_mem (hs : s.Genuine known) (h : s.token? = some k) :
    ∃ file, known file ∧ k ∈ file.tokens := by
  obtain ⟨σ, tag, rfl, site, tagged, _⟩ := hs.token_site h
  exact ⟨σ.file, site.file, Site.token_mem site tagged⟩

/-! ### The files of a shape -/

mutual

/-- The sites that a shape holds. -/
def sites : Shape → List Site
  | .primitive _ => []
  | .literal _ => []
  | .union members => sitesOf members
  | .intersection members site => site :: sitesOf members
  | .object site => [site]
  | .record key value site => site :: key.sites ++ value.sites
  | .interface _ declarations => declarations
  | .reference _ arguments site => site :: sitesOf arguments
  | .verbatim _ => []

def sitesOf : List Shape → List Site
  | [] => []
  | s :: rest => s.sites ++ sitesOf rest

end

theorem mem_sitesOf {ss : List Shape} {σ : Site} (h : s ∈ ss) (hσ : σ ∈ s.sites) :
    σ ∈ sitesOf ss := by
  obtain ⟨front, back, rfl⟩ := List.append_of_mem h
  clear h
  induction front with
  | nil =>
    rw [List.nil_append, sitesOf]
    exact List.mem_append_left _ hσ
  | cons _ front ih =>
    rw [List.cons_append, sitesOf]
    exact List.mem_append_right _ ih

/-- Only the files that a shape's sites are in have to be known. -/
theorem Genuine.relocate {known' : SourceFile → Prop} (h : s.Genuine known)
    (files : ∀ σ ∈ s.sites, known' σ.file) : s.Genuine known' := by
  have move {σ : Site} (hσ : σ.Of known) (file : known' σ.file) : σ.Of known' := ⟨file, hσ.place⟩
  induction h with
  | primitive name => exact .primitive name
  | literal value => exact .literal value
  | verbatim text => exact .verbatim text
  | union _ ih =>
    rw [sites] at files
    exact .union fun m hm => ih m hm fun σ hσ => files σ (mem_sitesOf hm hσ)
  | object site =>
    rw [sites] at files
    exact .object (move site (files _ (by simp)))
  | record _ _ site ihKey ihValue =>
    simp only [sites, List.cons_append, List.mem_cons, List.mem_append] at files
    exact .record (ihKey fun σ hσ => files σ (.inr (.inl hσ)))
      (ihValue fun σ hσ => files σ (.inr (.inr hσ))) (move site (files _ (.inl rfl)))
  | interface declared =>
    rw [sites] at files
    obtain ⟨some, file, scope, name, _, within, isScope, eq⟩ := declared
    obtain ⟨d, hd⟩ := List.exists_mem_of_ne_nil _ some
    have same := (SourceFile.mem_declarationsIn (List.mem_of_mem_filter (eq ▸ hd))).1
    exact .interface ⟨some, file, scope, name, same ▸ files d hd, within, isScope, eq⟩
  | intersection site kind shape _ ih =>
    simp only [sites, List.mem_cons] at files
    exact .intersection (move site (files _ (.inl rfl))) kind shape
      fun m hm => ih m hm fun σ hσ => files σ (.inr (mem_sitesOf hm hσ))
  | reference site kind shape _ ih =>
    simp only [sites, List.mem_cons] at files
    exact .reference (move site (files _ (.inl rfl))) kind shape
      fun m hm => ih m hm fun σ hσ => files σ (.inr (mem_sitesOf hm hσ))

/-- The sizes of the trees that sites are in. -/
def treeSizes (sites : List Site) : Nat := (sites.map (·.file.tree.size)).sum

theorem treeSizes_append (ss ts : List Site) :
    treeSizes (ss ++ ts) = treeSizes ss + treeSizes ts := by
  rw [treeSizes, List.map_append, List.sum_append]
  rfl

theorem treeSizes_cons (σ : Site) (ss : List Site) :
    treeSizes (σ :: ss) = σ.file.tree.size + treeSizes ss := rfl

theorem treeSizes_sitesOf {ss : List Shape} (h : ∀ s ∈ ss, treeSizes s.sites ≤ s.weight) :
    treeSizes (sitesOf ss) ≤ weights ss := by
  induction ss with
  | nil => exact le_rfl
  | cons s ss ih =>
    have first := h s List.mem_cons_self
    have rest := ih fun t ht => h t (List.mem_cons_of_mem _ ht)
    rw [sitesOf, treeSizes_append, weights]
    omega

theorem treeSizes_le_extents {ss : List Site} (h : ∀ σ ∈ ss, σ.Of known) :
    treeSizes ss ≤ Site.extents ss := by
  induction ss with
  | nil => exact le_rfl
  | cons σ ss ih =>
    have first : σ.file.tree.size ≤ σ.extent := Place.root_le_extent (h σ List.mem_cons_self).place
    have rest := ih fun τ hτ => h τ (List.mem_cons_of_mem _ hτ)
    rw [treeSizes_cons, Site.extents]
    omega

/-- The weight of a shape counts the trees that it is written in. -/
theorem Genuine.treeSizes_le_weight (h : s.Genuine known) : treeSizes s.sites ≤ s.weight := by
  have tree {σ : Site} (hσ : σ.Of known) : σ.file.tree.size ≤ σ.extent :=
    Place.root_le_extent hσ.place
  induction h with
  | primitive | literal | verbatim => exact Nat.zero_le _
  | union _ ih =>
    rw [sites, weight]
    exact (treeSizes_sitesOf ih).trans (Nat.le_succ _)
  | object site =>
    rw [sites, weight, treeSizes_cons]
    exact (tree site).trans (Nat.le_succ _)
  | record _ _ site ihKey ihValue =>
    have own := tree site
    rw [sites, List.cons_append, treeSizes_cons, treeSizes_append, weight]
    omega
  | interface declared =>
    rw [sites, weight]
    exact (treeSizes_le_extents fun d hd => (declared.of_mem hd).1).trans (Nat.le_succ _)
  | intersection site _ _ _ ih =>
    have own := tree site
    have inside := treeSizes_sitesOf ih
    rw [sites, treeSizes_cons, weight]
    omega
  | reference site _ _ _ ih =>
    have own := tree site
    have inside := treeSizes_sitesOf ih
    rw [sites, treeSizes_cons, weight]
    omega

theorem Genuine.known_of_mem_sites (h : s.Genuine known) {σ : Site} (hσ : σ ∈ s.sites) :
    known σ.file := by
  have inside {ss : List Shape} (ih : ∀ t ∈ ss, ∀ σ ∈ t.sites, known σ.file) :
      ∀ σ ∈ sitesOf ss, known σ.file := by
    induction ss with
    | nil => simp [sitesOf]
    | cons t ss rest =>
      intro σ hσ
      rw [sitesOf] at hσ
      rcases List.mem_append.mp hσ with hσ | hσ
      · exact ih t List.mem_cons_self σ hσ
      · exact rest (fun u hu => ih u (List.mem_cons_of_mem _ hu)) σ hσ
  induction h generalizing σ with
  | primitive | literal | verbatim => cases hσ
  | union _ ih => exact inside (fun m hm σ hσ => ih m hm hσ) σ hσ
  | object site => exact List.mem_singleton.mp hσ ▸ site.file
  | record _ _ site ihKey ihValue =>
    simp only [sites, List.cons_append, List.mem_cons, List.mem_append] at hσ
    rcases hσ with rfl | hσ | hσ
    · exact site.file
    · exact ihKey hσ
    · exact ihValue hσ
  | interface declared => exact (declared.of_mem hσ).1.file
  | intersection site _ _ _ ih =>
    rcases List.mem_cons.mp hσ with rfl | hσ
    · exact site.file
    · exact inside (fun m hm σ hσ => ih m hm hσ) σ hσ
  | reference site _ _ _ ih =>
    rcases List.mem_cons.mp hσ with rfl | hσ
    · exact site.file
    · exact inside (fun m hm σ hσ => ih m hm hσ) σ hσ

end Shape

/-! ### The bound of a search -/

/-- The files that a search from a shape can lead to. -/
def Program.filesFrom (p : Program) (s : Shape) : List SourceFile :=
  s.sites.map (·.file) ++ p.modules.values.map (·.file)

namespace Shape

variable {p : Program} {s u v : Shape}

/-- A shape that a search from another shape can lead to. -/
structure Near (p : Program) (s u : Shape) : Prop where
  genuine : u.Genuine (· ∈ p.filesFrom s)
  size : u.size ≤ s.weight + p.weight

theorem sizes_eq_sum (modules : List Module) :
    Node.sizes (modules.map (·.file.tree)) = (modules.map (·.file.tree.size)).sum := by
  induction modules with
  | nil => rfl
  | cons m modules ih => rw [List.map_cons, Node.sizes, ih, List.map_cons, List.sum_cons]

section

variable (hs : s.Genuine known) (hp : p.Of known)

include hs

theorem sum_filesFrom :
    ((p.filesFrom s).map (·.tree.size)).sum ≤ s.weight + p.weight := by
  have own : ((s.sites.map (·.file)).map (·.tree.size)).sum ≤ s.weight := by
    rw [List.map_map]
    exact hs.treeSizes_le_weight
  have modules : ((p.modules.values.map (·.file)).map (·.tree.size)).sum = p.weight := by
    rw [List.map_map]
    exact (sizes_eq_sum _).symm
  rw [Program.filesFrom, List.map_append, List.sum_append]
  omega

theorem size_le_of_mem_filesFrom {f : SourceFile} (hf : f ∈ p.filesFrom s) :
    f.tree.size ≤ s.weight + p.weight :=
  (List.le_sum_of_mem (List.mem_map_of_mem hf)).trans (sum_filesFrom hs)

theorem near_self : Near p s s where
  genuine := hs.relocate fun _ hσ =>
    List.mem_append_left _ (List.mem_map_of_mem hσ)
  size := (size_le_weight s).trans (Nat.le_add_right _ _)

theorem length_tokens_filesFrom :
    ((p.filesFrom s).flatMap SourceFile.tokens).length ≤ s.weight + p.weight := by
  refine le_trans ?_ (sum_filesFrom hs)
  rw [List.length_flatMap]
  exact List.sum_le_sum fun f _ => f.length_tokens

include hp

theorem known_of_mem_filesFrom {f : SourceFile} (hf : f ∈ p.filesFrom s) : known f := by
  rcases List.mem_append.mp hf with hf | hf
  · obtain ⟨σ, hσ, rfl⟩ := List.mem_map.mp hf
    exact hs.known_of_mem_sites hσ
  · obtain ⟨m, hm, rfl⟩ := List.mem_map.mp hf
    exact hp m hm

/-- What is near a genuine shape is genuine. -/
theorem Near.genuine_known (hu : Near p s u) : u.Genuine known :=
  hu.genuine.relocate fun _ hσ => known_of_mem_filesFrom hs hp (hu.genuine.known_of_mem_sites hσ)

theorem library_filesFrom (lib : Library known) : Library (· ∈ p.filesFrom s) :=
  lib.mono fun _ hf => known_of_mem_filesFrom hs hp hf

/-- A reference leads to no shape that is farther away. -/
theorem Near.target (lib : Library known) (hu : Near p s u) (h : p.target? u = .ok (some v)) :
    Near p s v := by
  have lib' := library_filesFrom hs hp lib
  have hp' : p.Of (· ∈ p.filesFrom s) := fun _ hm =>
    List.mem_append_right _ (List.mem_map_of_mem hm)
  exact ⟨p.genuine_target lib' hp' hu.genuine h,
    p.size_target lib' hp' (fun _ hf => size_le_of_mem_filesFrom hs hf) hu.genuine hu.size h⟩

omit hp in
theorem Near.written {σ : Site} (hσ : σ.Of (· ∈ p.filesFrom s)) (h : σ.shape = .ok v) :
    Near p s v :=
  ⟨σ.genuine_shape hσ h, (σ.size_shape hσ h).trans (size_le_of_mem_filesFrom hs hσ.file)⟩

/-- Shapes that a search can lead to are told apart by their tokens. -/
theorem keyed (lib : Library known) {β : Type} {next : Shape → List (Shape ⊕ β)}
    (closed : ∀ u v, Near p s u → Search.Leads next u v → Near p s v)
    (alike : ∀ {u v}, Alike u v → next u = next v)
    (descends : ∀ {u v}, u.token? = none → Search.Leads next u v → v.size < u.size) :
    Search.Keyed Shape.token? next (Near p s) ((p.filesFrom s).flatMap SourceFile.tokens)
      Shape.size (s.weight + p.weight) where
  closed := closed
  same hu hv ku kv :=
    alike (alike_of_token (library_filesFrom hs hp lib) hu.genuine hv.genuine ku kv)
  known hu ku := by
    obtain ⟨file, hf, mem⟩ := token_mem hu.genuine ku
    exact List.mem_flatMap.mpr ⟨file, hf, mem⟩
  descends _ none step := descends none step
  bounded hu := hu.size

omit hp in
/-- The bound of a resolver is large enough. -/
theorem bound_filesFrom :
    (((p.filesFrom s).flatMap SourceFile.tokens).length + 1) * (s.weight + p.weight + 1) ≤
      (Resolver.program p).bound s := by
  have tokens := length_tokens_filesFrom hs (p := p)
  change _ ≤ (s.weight + p.weight + 1 + 1) * (s.weight + p.weight + 1 + 1)
  exact Nat.mul_le_mul (by omega) (by omega)

end

end Shape

end

end ParamSchema
