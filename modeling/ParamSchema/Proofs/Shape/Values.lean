import ParamSchema.Proofs.Declarations
import ParamSchema.Proofs.Shape.Grouping

/-!
The listed values of a type by reachability. A type spreads into all members of its unions and into
what its references stand for (`Resolver.Spreads`). The values that are listed are those of the
literals that can be reached so, each once and in increasing order, whatever other types stand
beside them and however aliases refer to one another; there are values unless a reference that can
be reached fails (`Resolver.listedValues_follow_reachability`).
-/

namespace ParamSchema.Resolver

open Relation (ReflTransGen)

variable {r : Resolver} {s u : Shape}

/-! ### Types without a value -/

theorem Reaches.spreads (h : r.Reaches s u) : ReflTransGen r.Spreads s u :=
  h.lift id fun _ _ step => step.spreads

/-- What a type spreads into, it opens into, but for the types without a value. -/
theorem reaches_or_nullish (h : ReflTransGen r.Spreads s u) :
    r.Reaches s u ∨ u.isNullish = true := by
  induction h with
  | refl => exact .inl .refl
  | @tail b c _ step ih =>
    have split : b.splits = true := splits_of_spreads step
    rcases ih with reached | nullish
    · cases step with
      | member mem =>
        cases nullish : c.isNullish with
        | true => exact .inr rfl
        | false => exact .inl (reached.tail (.member mem nullish))
      | target found => exact .inl (reached.tail (.target found))
    · rcases Shape.nullish_cases nullish with rfl | rfl <;> cases split

theorem exists_fails_iff :
    (∃ u cause, ReflTransGen r.Spreads s u ∧ r.Fails u cause) ↔
      ∃ u cause, r.Reaches s u ∧ r.Fails u cause := by
  constructor
  · rintro ⟨u, cause, path, fails⟩
    refine ⟨u, cause, (reaches_or_nullish path).resolve_right ?_, fails⟩
    intro nullish
    rcases Shape.nullish_cases nullish with rfl | rfl <;> cases r <;> cases fails
  · rintro ⟨u, cause, reached, fails⟩
    exact ⟨u, cause, reached.spreads, fails⟩

/-! ### Literals among the leaves -/

/-- Only a literal is a leaf that lists a value. -/
theorem listed_mem_leafStep_iff {v : Text} :
    (∃ leaf : Leaf, .inr (.ok leaf) ∈ r.leafStep u ∧ leaf.listed? = some v) ↔
      ∃ value, u = .literal value ∧ value.listed? = some v := by
  constructor
  · rintro ⟨leaf, mem, listed⟩
    cases u with
    | literal value =>
      cases List.mem_singleton.mp mem
      exact ⟨value, rfl, listed⟩
    | primitive name =>
      cases List.mem_singleton.mp mem
      cases known : PrimitiveKind.ofText? name <;> rw [known] at listed <;> cases listed
    | union members =>
      rw [leafStep] at mem
      split at mem
      · cases List.mem_singleton.mp mem
        cases listed
      · simp at mem
    | reference name arguments site =>
      rw [leafStep] at mem
      split at mem
      · cases List.mem_singleton.mp mem
      · cases List.mem_singleton.mp mem
        cases listed
      · cases List.mem_singleton.mp mem
    | intersection | object | record | interface | verbatim =>
      cases List.mem_singleton.mp mem
      cases listed
  · rintro ⟨value, rfl, listed⟩
    exact ⟨.literal value, List.mem_singleton_self _, listed⟩

theorem listedValues_eq_ok_iff {values : List Text} :
    r.listedValues s = .ok values ↔ ∃ leaves : List Leaf, r.leaves s = leaves.map .ok ∧
      values = Text.sortedDistinct (leaves.filterMap Leaf.listed?) := by
  rw [listedValues, Outcome.bind_eq_ok]
  simp only [Outcome.mapM_id_eq_ok, Outcome.pure_eq_ok]
  exact exists_congr fun _ => and_congr_right fun _ => eq_comm

theorem listedValues_eq_error {cause : Overflow} (h : r.listedValues s = .error cause) :
    .error cause ∈ r.leaves s := by
  rw [listedValues] at h
  rcases Outcome.bind_eq_error.mp h with h | ⟨_, _, h⟩
  · obtain ⟨x, mem, rfl⟩ := Outcome.exists_of_mapM_eq_error h
    exact mem
  · cases h

section

variable {known : SourceFile → Prop} (lib : Library known) (hr : r.Of known) (hs : s.Genuine known)

include lib hr hs

theorem exists_listedValues_iff :
    (∃ values, r.listedValues s = .ok values) ↔
      ∀ u cause, ReflTransGen r.Spreads s u → ¬ r.Fails u cause := by
  have failing : (∃ cause, .error cause ∈ r.leaves s) ↔
      ∃ u cause, ReflTransGen r.Spreads s u ∧ r.Fails u cause := by
    simp only [exists_fails_iff, error_mem_leaves_iff lib hr hs]
    exact exists_comm
  constructor
  · rintro ⟨values, given⟩ u cause path fails
    obtain ⟨cause', mem⟩ := failing.mpr ⟨u, cause, path, fails⟩
    obtain ⟨leaves, all, _⟩ := listedValues_eq_ok_iff.mp given
    simp [all] at mem
  · intro sound
    cases result : r.listedValues s with
    | ok values => exact ⟨values, rfl⟩
    | error cause =>
      obtain ⟨u, cause', path, fails⟩ := failing.mp ⟨cause, listedValues_eq_error result⟩
      exact absurd fails (sound u cause' path)

theorem mem_listedValues_iff {values : List Text} (h : r.listedValues s = .ok values) {v : Text} :
    v ∈ values ↔ ∃ value, ReflTransGen r.Spreads s (.literal value) ∧ value.listed? = some v := by
  obtain ⟨leaves, all, rfl⟩ := listedValues_eq_ok_iff.mp h
  have leaf (x : Leaf) : x ∈ leaves ↔ ∃ u, r.Reaches s u ∧ .inr (.ok x) ∈ r.leafStep u := by
    rw [← mem_leaves_iff lib hr hs, all]
    simp
  rw [Text.mem_sortedDistinct, List.mem_filterMap]
  constructor
  · rintro ⟨x, mem, listed⟩
    obtain ⟨u, reached, step⟩ := (leaf x).mp mem
    obtain ⟨value, rfl, listed⟩ := listed_mem_leafStep_iff.mp ⟨x, step, listed⟩
    exact ⟨value, reached.spreads, listed⟩
  · rintro ⟨value, path, listed⟩
    have reached := (reaches_or_nullish path).resolve_right Bool.false_ne_true
    exact ⟨.literal value, (leaf _).mpr ⟨_, reached, List.mem_singleton_self _⟩, listed⟩

/-- Where the literals of the files fit, no reference that can be reached fails. -/
theorem not_fails_of_literalsFit (fit : ∀ file ∈ r.base.filesFrom s, file.literalsFit = true)
    {cause : Overflow} (path : ReflTransGen r.Spreads s u) : ¬ r.Fails u cause := by
  have near : Shape.Near r.base s u := by
    induction path with
    | refl => exact Shape.near_self hs
    | tail _ step ih => exact near_of_spreads lib hr hs ih step
  intro fails
  cases r with
  | textual => cases fails
  | program p =>
    have own : p.Of (· ∈ p.filesFrom s) := fun _ hm =>
      List.mem_append_right _ (List.mem_map_of_mem hm)
    obtain ⟨t?, found⟩ :=
      Program.exists_target fit (Shape.library_filesFrom hs hr lib) own near.genuine
    rw [Fails, target?, found] at fails
    cases fails

end

/-- The listed values of a type are the texts of the literals that it spreads into, in strictly
increasing order, for any resolver, whatever else the type spreads into and however often. There are
such values exactly when no reference on the way fails. None does where all literals fit, and what
is read as the number of a member of an enumeration. -/
theorem listedValues_follow_reachability {fs : FileSystem} (hfs : r.Over fs)
    (described : s.Described fs) :
    ((∃ values, r.listedValues s = .ok values) ↔
      ∀ u cause, ReflTransGen r.Spreads s u → ¬ r.Fails u cause) ∧
    (∀ values, r.listedValues s = .ok values →
      values.Pairwise Text.Before ∧
      ∀ v, v ∈ values ↔
        ∃ value, ReflTransGen r.Spreads s (.literal value) ∧ value.listed? = some v) ∧
    ((∀ file ∈ r.base.filesFrom s, file.literalsFit = true) →
      ∃ values, r.listedValues s = .ok values) := by
  have lib := library_readFrom fs
  have hr := hfs.readFrom
  have hs := described.genuine
  refine ⟨exists_listedValues_iff lib hr hs, ?_, ?_⟩
  · intro values given
    obtain ⟨leaves, _, rfl⟩ := listedValues_eq_ok_iff.mp given
    exact ⟨Text.pairwise_sortedDistinct _, fun v => mem_listedValues_iff lib hr hs given⟩
  · intro fit
    exact (exists_listedValues_iff lib hr hs).mpr fun u cause =>
      not_fails_of_literalsFit lib hr hs fit

/-- Aliases that refer to one another, with a number and a string of the same text, a truth value
and types that are no literals. -/
theorem listedValues_mutual_aliases :
    let path : Path := ⟨false, [txt "a.ts"]⟩
    let fs := FileSystem.ofSource path "type A = B | '5' | true | string[];
type B = A | 5 | (null | E); enum E \x7b X = 'x', Y = 5 \x7d"
    ∃ p s, Program.load fs [] [path] = .ok p ∧ s.Described fs ∧
      (program p).listedValues s = .ok [txt "5", txt "x"] ∧
      (∀ u cause, ReflTransGen (program p).Spreads s u → ¬ (program p).Fails u cause) ∧
      ∀ v, v ∈ [txt "5", txt "x"] ↔ ∃ value,
        ReflTransGen (program p).Spreads s (.literal value) ∧ value.listed? = some v := by
  intro path fs
  have run : ((Program.withAlias? fs path (txt "A")).map fun found =>
      found.2.shape >>= (program found.1).listedValues) = some (.ok [txt "5", txt "x"]) := by
    decide +kernel
  obtain ⟨⟨p, value⟩, found, eq⟩ := Option.map_eq_some_iff.mp run
  obtain ⟨loaded, known⟩ := Program.withAlias?_eq_some found
  obtain ⟨s, shape, values⟩ := Outcome.bind_eq_ok.mp eq
  have described : s.Described fs := .written known shape
  obtain ⟨given, exact_, _⟩ :=
    listedValues_follow_reachability (r := program p) ⟨[], [path], loaded⟩ described
  exact ⟨p, s, loaded, described, values, given.mp ⟨_, values⟩, (exact_ _ values).2⟩

/-- The name of a constant that is read as a number, and is too large for one, takes away all
values, though every literal fits. -/
theorem listedValues_misread_name :
    let path : Path := ⟨false, [txt "a.ts"]⟩
    let fs := FileSystem.ofSource path ("enum E \x7b A = _0x1" ++
      String.ofList (List.replicate 256 '0') ++ " \x7d type T = E | 'x'")
    ∃ p s, Program.load fs [] [path] = .ok p ∧ s.Described fs ∧
      (∀ file ∈ p.filesFrom s, ∀ n ∈ file.tree.preorder,
        n.kind = .string ∨ n.kind = .number → file.fits n = true) ∧
      (∃ value, ReflTransGen (program p).Spreads s (.literal value) ∧
        value.listed? = some (txt "x")) ∧
      (program p).listedValues s = .error .number := by
  intro path fs
  have run : ((Program.withAlias? fs path (txt "T")).map fun found =>
      found.2.shape.map fun s =>
        decide ((∀ file ∈ found.1.filesFrom s, ∀ n ∈ file.tree.preorder,
            n.kind = .string ∨ n.kind = .number → file.fits n = true) ∧
          textual.listedValues s = .ok [txt "x"] ∧ found.1.beginsOversized s = true)) =
      some (.ok true) := by
    decide +kernel
  obtain ⟨⟨p, value⟩, found, eq⟩ := Option.map_eq_some_iff.mp run
  obtain ⟨loaded, known⟩ := Program.withAlias?_eq_some found
  obtain ⟨s, shape, facts⟩ := Outcome.map_eq_ok.mp eq
  obtain ⟨fit, written, oversized⟩ := of_decide_eq_true facts
  have fails := Program.listedValues_of_beginsOversized oversized
  have described : s.Described fs := .written known shape
  obtain ⟨value, path, listed⟩ := (mem_listedValues_iff (library_readFrom fs) textual_of
    described.genuine written).mp (List.mem_singleton_self (txt "x"))
  have reached := (reaches_or_nullish path).resolve_right Bool.false_ne_true
  exact ⟨p, s, loaded, described, fit, ⟨value, reached.of_textual.1.spreads, listed⟩, fails⟩

end ParamSchema.Resolver
