import ParamSchema.Proofs.Rows
import ParamSchema.Proofs.Shape.Leaves
import ParamSchema.Proofs.Shape.Literals

/-!
Rows without a program. What the members of an object type say by themselves is an
under-approximation of what a program knows of them (`Row.Approximates`): the rows are the same but
for types that are unknown and values that are missing, and they are all the same where no type is
named (`Row.written_approximates_expanded`).
-/

namespace ParamSchema

/-! ### Lists of texts -/

namespace Text

theorem mem_insertSorted {w v : Text} {ts : List Text} :
    v ∈ insertSorted w ts ↔ v = w ∨ v ∈ ts := by
  induction ts with
  | nil => simp [insertSorted]
  | cons t ts ih =>
    rw [insertSorted]
    split
    · next same =>
      rw [eq_of_beq same]
      simp
    · split
      · simp
      · rw [List.mem_cons, ih, List.mem_cons]
        exact or_left_comm

theorem mem_sortedDistinct {v : Text} {ts : List Text} : v ∈ sortedDistinct ts ↔ v ∈ ts := by
  induction ts with
  | nil => exact Iff.rfl
  | cons t ts ih =>
    rw [sortedDistinct, List.foldr_cons, mem_insertSorted, List.mem_cons]
    exact or_congr_right ih

end Text

namespace Resolver

variable {r : Resolver} {s u : Shape}

/-! ### Types without a program -/

/-- Without a program, types only open into members of unions. -/
theorem Opens.of_textual (step : textual.Opens s u) :
    r.Opens s u ∧ (s.refers = false → u.refers = false) := by
  cases step with
  | member mem valued =>
    refine ⟨.member mem valued, ?_⟩
    intro none
    rw [Shape.refers, Shape.anyRefers_eq_any] at none
    simpa using List.any_eq_false.mp none u mem
  | target found => cases found

theorem Reaches.of_textual (h : textual.Reaches s u) :
    r.Reaches s u ∧ (s.refers = false → u.refers = false) := by
  induction h with
  | refl => exact ⟨.refl, id⟩
  | tail _ step ih =>
    obtain ⟨reached, refers⟩ := ih
    obtain ⟨step', refers'⟩ := step.of_textual
    exact ⟨reached.tail step', refers' ∘ refers⟩

/-- Only references lead elsewhere in another program. -/
theorem leafStep_textual (r : Resolver) (u : Shape) :
    (∃ name arguments site, u = .reference name arguments site) ∨
      textual.leafStep u = r.leafStep u := by
  cases u with
  | reference name arguments site => exact .inl ⟨name, arguments, site, rfl⟩
  | _ => exact .inr rfl

/-- A literal is one in any program. -/
theorem mem_leafStep_of_listed {leaf : Leaf} {value : Text}
    (mem : .inr (.ok leaf) ∈ textual.leafStep u) (listed : leaf.listed? = some value) :
    .inr (.ok leaf) ∈ r.leafStep u := by
  rcases leafStep_textual r u with ⟨name, arguments, site, rfl⟩ | same
  · cases List.mem_singleton.mp mem
    cases listed
  · rwa [← same]

section

variable {known : SourceFile → Prop} (lib : Library known)
  (fit : ∀ file, known file → file.literalsFit = true)

include lib fit

/-- Where literals fit, no leaf is a failure. -/
theorem exists_leaves (hr : r.Of known) (hs : s.Genuine known) :
    ∃ leaves : List Leaf, r.leaves s = leaves.map .ok := by
  cases result : (r.leaves s).mapM id with
  | ok leaves => exact ⟨leaves, Outcome.mapM_id_eq_ok.mp result⟩
  | error cause =>
    obtain ⟨x, mem, failure⟩ := Outcome.exists_of_mapM_eq_error result
    rw [id] at failure
    subst failure
    obtain ⟨u, reached, fails⟩ := (error_mem_leaves_iff lib hr hs).mp mem
    obtain ⟨t?, found⟩ : ∃ t?, r.target? u = .ok t? := by
      cases r with
      | textual => exact ⟨none, rfl⟩
      | program p =>
        exact Program.exists_target fit lib hr (genuine_of_reaches lib hr hs reached)
    rw [Fails, found] at fails
    cases fails

end

end Resolver

namespace Row

open Resolver (program)

variable {r : Resolver} {s : Shape}

/-! ### Kinds and values -/

theorem classify_eq {leaves : List Leaf} (h : r.leaves s = leaves.map .ok) :
    ∃ type, r.typeText s = .ok type ∧
      classify r s = (type, Text.sortedDistinct (leaves.filterMap Leaf.listed?)) := by
  have values : r.listedValues s =
      .ok (Text.sortedDistinct (leaves.filterMap Leaf.listed?)) := by
    rw [Resolver.listedValues, Outcome.mapM_id_eq_ok.mpr h]
    rfl
  have type : ∃ type, r.typeText s = .ok type := by
    rw [Resolver.typeText, h]
    rcases Resolver.leafKinds_cases (leaves.map .ok) with ⟨kinds, eq, _⟩ | ⟨eq, _⟩ |
      ⟨cause, _, mem⟩
    · exact ⟨_, by rw [eq]; rfl⟩
    · exact ⟨_, by rw [eq]; rfl⟩
    · simp at mem
  obtain ⟨type, htype⟩ := type
  refine ⟨type, htype, ?_⟩
  rw [classify, htype, values]

section

variable {known : SourceFile → Prop} {p : Program} (lib : Library known)
  (fit : ∀ file, known file → file.literalsFit = true) (hp : p.Of known) (hs : s.Genuine known)

include lib fit hp hs

/-- Without a program, the kinds of a type are those that a program gives or unknown, and its values
are some of them. -/
theorem classify_textual :
    ((classify .textual s).1 = txt "unknown" ∨
      (classify .textual s).1 = (classify (program p) s).1) ∧
    (classify .textual s).2 ⊆ (classify (program p) s).2 ∧
    (s.refers = false → classify .textual s = classify (program p) s) := by
  have hr : (program p).Of known := hp
  have same (apart : ∀ u, Resolver.textual.Reaches s u →
      ¬ ∃ name arguments site, u = .reference name arguments site) :
      classify .textual s = classify (program p) s := by
    have leaves := Resolver.leaves_congr lib Resolver.textual_of hr hs fun u reached =>
      (Resolver.leafStep_textual (program p) u).resolve_left (apart u reached)
    rw [classify, classify, Resolver.typeText, Resolver.typeText, Resolver.listedValues,
      Resolver.listedValues, leaves]
  have unnamed (none : s.refers = false) : classify .textual s = classify (program p) s := by
    apply same
    rintro u reached ⟨name, arguments, site, rfl⟩
    cases (reached.of_textual (r := program p)).2 none
  by_cases named : ∃ u, Resolver.textual.Reaches s u ∧
      ∃ name arguments site, u = .reference name arguments site
  · obtain ⟨u, reached, name, arguments, site, rfl⟩ := named
    obtain ⟨leaves, hleaves⟩ := Resolver.exists_leaves lib fit Resolver.textual_of hs
    obtain ⟨leaves', hleaves'⟩ := Resolver.exists_leaves lib fit hr hs
    obtain ⟨type, htype, told⟩ := classify_eq hleaves
    obtain ⟨type', _, told'⟩ := classify_eq hleaves'
    refine ⟨.inl ?_, ?_, unnamed⟩
    · have other : .ok .other ∈ Resolver.textual.leaves s :=
        (Resolver.mem_leaves_iff lib Resolver.textual_of hs).mpr
          ⟨_, reached, List.mem_singleton.mpr rfl⟩
      rw [told]
      exact Resolver.typeText_eq_unknown other rfl htype
    · rw [told, told']
      intro value mem
      obtain ⟨leaf, hleaf, listed⟩ := List.mem_filterMap.mp (Text.mem_sortedDistinct.mp mem)
      have found : .ok leaf ∈ Resolver.textual.leaves s :=
        hleaves ▸ List.mem_map_of_mem hleaf
      obtain ⟨v, hv, step⟩ := (Resolver.mem_leaves_iff lib Resolver.textual_of hs).mp found
      have found' : .ok leaf ∈ (program p).leaves s := (Resolver.mem_leaves_iff lib hr hs).mpr
        ⟨v, hv.of_textual.1, Resolver.mem_leafStep_of_listed step listed⟩
      rw [hleaves'] at found'
      obtain ⟨leaf', hleaf', eq⟩ := List.mem_map.mp found'
      cases eq
      exact Text.mem_sortedDistinct.mpr (List.mem_filterMap.mpr ⟨leaf, hleaf', listed⟩)
  · have eq := same fun u reached reference => named ⟨u, reached, reference⟩
    rw [eq]
    exact ⟨.inr rfl, List.Subset.refl _, fun _ => rfl⟩

end

/-! ### Rows -/

/-- A row that says no more than another and nothing else: its type may be unknown, and values may
be missing. -/
structure Approximates (a b : Row) : Prop where
  name : a.name = b.name
  optional : a.optional = b.optional
  description : a.description = b.description
  example_ : a.example_ = b.example_
  type : a.type = txt "unknown" ∨ a.type = b.type
  values : a.values.getD [] ⊆ b.values.getD []

theorem mem_of_mem_distinct {names : List Text} {ps : List Property} {q : Property}
    (h : q ∈ distinct names ps) : q ∈ ps := by
  induction ps generalizing names with
  | nil => cases h
  | cons first ps ih =>
    rw [distinct] at h
    split at h
    · exact List.mem_cons_of_mem _ (ih h)
    · rcases List.mem_cons.mp h with rfl | h
      · exact List.mem_cons_self
      · exact List.mem_cons_of_mem _ (ih h)

theorem getD_nonempty {α : Type} (l : List α) : (nonempty l).getD [] = l := by
  rw [nonempty]
  split
  · next empty => exact (List.isEmpty_iff.mp empty).symm
  · rfl

section

variable {known : SourceFile → Prop} {p : Program} (lib : Library known)
  (fit : ∀ file, known file → file.literalsFit = true) (hp : p.Of known)

include lib fit hp

theorem ofProperty_textual {q : Property} (hq : q.shape.Genuine known) :
    (ofProperty .textual q).Approximates (ofProperty (program p) q) ∧
      (q.shape.refers = false → ofProperty .textual q = ofProperty (program p) q) := by
  obtain ⟨type, values, unnamed⟩ := classify_textual lib fit hp hq
  constructor
  · refine ⟨rfl, rfl, rfl, rfl, ?_, ?_⟩
    · rcases type with unknown | same
      · left
        have other : (txt "unknown" == txt "string") = false := by decide
        simp only [ofProperty, unknown, other, Bool.and_false]
        exact if_neg Bool.false_ne_true
      · right
        simp only [ofProperty, same]
    · simp only [ofProperty, getD_nonempty]
      exact values
  · intro none
    rw [ofProperty, ofProperty, unnamed none]

/-- The rows of some properties, one after the other. -/
theorem ofProperties_textual {ps : List Property} (hps : ∀ q ∈ ps, q.shape.Genuine known) :
    List.Forall₂ Approximates (ofProperties .textual ps) (ofProperties (program p) ps) ∧
      ((∀ q ∈ ps, q.shape.refers = false) →
        ofProperties .textual ps = ofProperties (program p) ps) := by
  have row {q : Property} (hq : q ∈ distinct [] ps) :=
    ofProperty_textual lib fit hp (hps q (mem_of_mem_distinct hq))
  constructor
  · rw [ofProperties, ofProperties, List.forall₂_map_left_iff, List.forall₂_map_right_iff,
      List.forall₂_same]
    exact fun q hq => (row hq).1
  · intro none
    exact List.map_congr_left fun q hq => (row hq).2 (none q (mem_of_mem_distinct hq))

end

/-! ### Object types -/

section

variable {p : Program} {site : Site}

theorem bodies_object : (program p).bodies (.object site) = [.ok (.written site)] := by
  obtain ⟨n, bound⟩ := Resolver.exists_bound (program p) (.object site)
  rw [Resolver.bodies, bound, Search.along]
  rfl

theorem indexSignatures_eq_nil (none : ∀ m ∈ site.named, m.node.kind ≠ .indexSignature) :
    site.indexSignatures = .ok [] := by
  have each {m : Site} (hm : m ∈ site.named) : m.indexSignature? = .ok Option.none := by
    rw [Site.indexSignature?, if_pos (by simpa using none m hm)]
    rfl
  cases result : site.named.mapM Site.indexSignature? with
  | error cause =>
    obtain ⟨m, hm, fails⟩ := Outcome.exists_of_mapM_eq_error result
    rw [each hm] at fails
    cases fails
  | ok found =>
    refine Outcome.bind_eq_ok.mpr ⟨found, result, congrArg Except.ok ?_⟩
    apply List.filterMap_eq_nil_iff.mpr
    intro x hx
    obtain ⟨m, hm, signature⟩ := (Outcome.mem_of_mapM_eq_ok result x).mp hx
    rw [each hm] at signature
    exact (Except.ok.inj signature).symm

theorem ofShape_object {ps : List Property} (hps : site.properties = .ok ps)
    (none : ∀ m ∈ site.named, m.node.kind ≠ .indexSignature) :
    ofShape (program p) (.object site) = .ok (ofProperties (program p) ps) := by
  have properties : (program p).properties (.object site) = .ok ps := by
    rw [Resolver.properties, bodies_object]
    refine Outcome.bind_eq_ok.mpr ⟨[.written site], rfl, ?_⟩
    refine Outcome.bind_eq_ok.mpr ⟨[ps], ?_, congrArg Except.ok (List.append_nil ps)⟩
    exact Outcome.mapM_eq_ok.mpr (.cons hps .nil)
  have index (key : IndexKey) : ofIndex? (program p) (.object site) key = .ok Option.none := by
    have body : (program p).bodyIndex? key (.written site) = .ok Option.none :=
      Outcome.bind_eq_ok.mpr ⟨[], indexSignatures_eq_nil none, rfl⟩
    refine Outcome.bind_eq_ok.mpr ⟨Option.none, ?_, rfl⟩
    rw [Resolver.indexed?, bodies_object]
    exact Outcome.bind_eq_ok.mpr ⟨Option.none, body, rfl⟩
  refine Outcome.bind_eq_ok.mpr ⟨ps, properties, ?_⟩
  refine Outcome.bind_eq_ok.mpr ⟨[Option.none, Option.none], ?_, ?_⟩
  · exact Outcome.mapM_eq_ok.mpr (.cons (index _) (.cons (index _) .nil))
  · exact congrArg Except.ok (List.append_nil _)

end

/-- The rows that an object type without index signatures has by itself are an under-approximation
of the rows that it has in a program, if all literals fit. Where no type is named, they are the
same. -/
theorem written_approximates_expanded {fs : FileSystem} {extensions : List Text}
    {requested : List Path} {p : Program} {site : Site}
    (loaded : Program.load fs extensions requested = .ok p)
    (known : site.Of (SourceFile.ReadFrom fs)) (object : site.node.kind = .objectType)
    (noIndex : ∀ m ∈ site.named, m.node.kind ≠ .indexSignature)
    (fit : site.file.literalsFit = true)
    (fits : ∀ m ∈ p.modules.values, m.file.literalsFit = true) :
    ∃ rows rows', written .textual site = .ok rows ∧
      expanded? (program p) site = nonempty rows' ∧ List.Forall₂ Approximates rows rows' ∧
      ((∀ m ∈ site.named, ∀ t, m.child? .type = some t → t.node.mentionsType = false) →
        rows = rows') := by
  -- Only the files whose literals fit are counted as known.
  let readable (file : SourceFile) : Prop := file.ReadFrom fs ∧ file.literalsFit = true
  have lib : Library readable := (library_readFrom fs).mono fun _ h => h.1
  have hp : p.Of readable := fun m hm => ⟨Program.of_load loaded m hm, fits m hm⟩
  have hs : site.Of readable := ⟨⟨known.file, fit⟩, known.place⟩
  obtain ⟨ps, hps, told⟩ := Site.exists_properties hs fit
  obtain ⟨approximate, unnamed⟩ :=
    ofProperties_textual lib (fun _ h => h.2) hp fun q hq => (told q hq).1
  refine ⟨_, _, Outcome.bind_eq_ok.mpr ⟨ps, hps, rfl⟩, ?_, approximate, ?_⟩
  · rw [expanded?, Site.shape_of_objectType object]
    simp only [Except.bind, ofShape_object hps noIndex]
  · intro none
    exact unnamed fun q hq => (told q hq).2 none

/-- A name among literals, a name of its own, and a password. -/
theorem written_approximates_expanded_named :
    let path : Path := ⟨false, [txt "a.ts"]⟩
    let fs := FileSystem.ofSource path "type N = 'x' | N; enum E \x7b A = 0x10, B = 's' \x7d
type T = \x7b /** @password */ a: string; b?: 'y' | N; 'c': E; d: 1 | null \x7d"
    ∃ p site rows rows', Program.load fs [] [path] = .ok p ∧
      site.Of (SourceFile.ReadFrom fs) ∧ site.node.kind = .objectType ∧
      site.file.literalsFit = true ∧ written .textual site = .ok rows ∧
      expanded? (program p) site = nonempty rows' ∧ List.Forall₂ Approximates rows rows' ∧
      rows.map Row.type = [txt "password", txt "unknown", txt "unknown", txt "number"] ∧
      rows'.map Row.type = [txt "password", txt "string", txt "number | string", txt "number"] := by
  intro path fs
  have run : ((Program.withAlias? fs path (txt "T")).any fun found =>
      decide (found.2.node.kind = .objectType ∧
        (∀ m ∈ found.2.named, m.node.kind ≠ .indexSignature) ∧
        found.2.file.literalsFit = true ∧
        (∀ m ∈ found.1.modules.values, m.file.literalsFit = true) ∧
        (List.map Row.type <$> written .textual found.2) =
          .ok [txt "password", txt "unknown", txt "unknown", txt "number"] ∧
        (expanded? (program found.1) found.2).map (List.map Row.type) =
          some [txt "password", txt "string", txt "number | string", txt "number"])) = true := by
    decide +kernel
  obtain ⟨⟨p, site⟩, found, facts⟩ := (Option.any_eq_true ..).mp run
  obtain ⟨loaded, known⟩ := Program.withAlias?_eq_some found
  obtain ⟨object, noIndex, fit, fits, types, types'⟩ := of_decide_eq_true facts
  obtain ⟨rows, rows', given, given', approximate, _⟩ :=
    written_approximates_expanded loaded known object noIndex fit fits
  refine ⟨p, site, rows, rows', loaded, known, object, fit, given, given', approximate, ?_, ?_⟩
  · rw [given] at types
    exact Except.ok.inj types
  · obtain ⟨rows'', expands, types'⟩ := Option.map_eq_some_iff.mp types'
    rw [eq_of_nonempty (given'.symm.trans expands)]
    exact types'

/-- An enumeration with a name for a value that is read as a number, and is too large for one, takes
away the values beside it, though all strings and numbers fit. -/
theorem expanded_without_written_values :
    let path : Path := ⟨false, [txt "a.ts"]⟩
    let fs := FileSystem.ofSource path ("enum E \x7b A = _0x1" ++
      String.ofList (List.replicate 256 '0') ++ " \x7d type T = \x7b a: E | 'x' \x7d")
    ∃ p site, Program.load fs [] [path] = .ok p ∧ site.Of (SourceFile.ReadFrom fs) ∧
      site.node.kind = .objectType ∧ (∀ m ∈ site.named, m.node.kind ≠ .indexSignature) ∧
      (∀ file ∈ site.file :: p.modules.values.map Module.file, ∀ n ∈ file.tree.preorder,
        n.kind = .string ∨ n.kind = .number → file.fits n = true) ∧
      List.map Row.values <$> written .textual site = .ok [some [txt "x"]] ∧
      (expanded? (program p) site).map (List.map Row.values) = some [none] := by
  intro path fs
  have run : ((Program.withAlias? fs path (txt "T")).any fun found =>
      decide (found.2.node.kind = .objectType ∧
        (∀ m ∈ found.2.named, m.node.kind ≠ .indexSignature) ∧
        (∀ file ∈ found.2.file :: found.1.modules.values.map Module.file,
          ∀ n ∈ file.tree.preorder, n.kind = .string ∨ n.kind = .number → file.fits n = true) ∧
        List.map Row.values <$> written .textual found.2 = .ok [some [txt "x"]] ∧
        (List.map fun q => found.1.beginsOversized q.shape) <$> found.2.properties =
          .ok [true])) = true := by
    decide +kernel
  obtain ⟨⟨p, site⟩, found, facts⟩ := (Option.any_eq_true ..).mp run
  obtain ⟨loaded, known⟩ := Program.withAlias?_eq_some found
  obtain ⟨object, noIndex, fit, values, properties⟩ := of_decide_eq_true facts
  refine ⟨p, site, loaded, known, object, noIndex, fit, values, ?_⟩
  obtain ⟨ps, hps, one⟩ := Outcome.map_eq_ok.mp properties
  obtain ⟨q, rfl, oversized⟩ := List.map_eq_singleton_iff.mp one
  have fails := Program.listedValues_of_beginsOversized oversized
  rw [expanded?, Site.shape_of_objectType object]
  simp [Except.bind, ofShape_object hps noIndex, ofProperties, distinct, ofProperty, classify,
    fails, nonempty]

end Row

end ParamSchema
