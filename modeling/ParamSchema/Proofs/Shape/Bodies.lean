import ParamSchema.Proofs.Shape.Keys

/-!
The bodies of a type by reachability. A type inherits from the members of its intersections, from
what its references stand for and from the bases of all declarations of its interfaces
(`Resolver.Inherits`). Unless something on the way cannot be represented, the search meets exactly
the bodies of the types that can be reached (`Resolver.mapM_bodies_eq_ok`), in any graph of aliases
and interfaces.
-/

namespace ParamSchema

/-- The bodies that a type has itself. -/
inductive Shape.Holds : Shape → Body → Prop where
  | object (site : Site) : Holds (.object site) (.written site)
  | record (key value : Shape) (site : Site) :
      Holds (.record key value site) (.keyed key value site)
  | interface {name : Text} {declarations : List Site} {d site : Site} :
      d ∈ declarations → d.child? .body = some site →
      Holds (.interface name declarations) (.written site)

namespace Resolver

open Relation (ReflTransGen)

variable {r : Resolver} {s t u v : Shape} {b : Body} {cause : Overflow}

/-- A type that has the members of another one too. -/
inductive Inherits (r : Resolver) : Shape → Shape → Prop where
  | member {members : List Shape} {site : Site} {m : Shape} :
      m ∈ members → Inherits r (.intersection members site) m
  | target {s t : Shape} : r.target? s = .ok (some t) → Inherits r s t
  | base {name : Text} {declarations : List Site} {d : Site} {bases : List Shape} {b : Shape} :
      d ∈ declarations → d.bases = .ok bases → b ∈ bases →
      Inherits r (.interface name declarations) b

/-- A reference or an interface for which it cannot be told what it inherits from. -/
inductive Halts (r : Resolver) : Shape → Overflow → Prop where
  | target {s : Shape} {cause : Overflow} : r.target? s = .error cause → Halts r s cause
  | base {name : Text} {declarations : List Site} {d : Site} {cause : Overflow} :
      d ∈ declarations → d.bases = .error cause → Halts r (.interface name declarations) cause

/-! ### One step of the search -/

/-- The steps that there can be from a type: to its own bodies, and then either to all types that it
inherits from or to a failure. -/
inductive BodySteps (r : Resolver) (u : Shape) : List (Shape ⊕ Except Overflow Body) → Prop where
  | onward {bodies : List Body} {vs : List Shape} :
      (∀ b, b ∈ bodies ↔ u.Holds b) → (∀ v, v ∈ vs ↔ r.Inherits u v) →
      (∀ cause, ¬ r.Halts u cause) →
      BodySteps r u (bodies.map (fun b => .inr (.ok b)) ++ vs.map .inl)
  | halts {bodies : List Body} {cause : Overflow} :
      (∀ b, b ∈ bodies ↔ u.Holds b) → r.Halts u cause →
      BodySteps r u (bodies.map (fun b => .inr (.ok b)) ++ [.inr (.error cause)])

/-- What is no intersection, no interface and no reference inherits from nothing. -/
theorem bodySteps_alone (bodies : List Body) (target : r.target? u = .ok none)
    (intersection : ∀ members site, u ≠ .intersection members site)
    (interface : ∀ name declarations, u ≠ .interface name declarations)
    (own : ∀ b, b ∈ bodies ↔ u.Holds b) :
    BodySteps r u (bodies.map fun b => .inr (.ok b)) := by
  have alone (v : Shape) : v ∈ [] ↔ r.Inherits u v := by
    refine ⟨nofun, ?_⟩
    intro step
    cases step with
    | member => exact absurd rfl (intersection _ _)
    | target found =>
      rw [target] at found
      cases found
    | base => exact absurd rfl (interface _ _)
  have sound (cause : Overflow) : ¬ r.Halts u cause := by
    intro halts
    cases halts with
    | target found =>
      rw [target] at found
      cases found
    | base => exact absurd rfl (interface _ _)
  have steps := BodySteps.onward own alone sound
  rwa [List.map_nil, List.append_nil] at steps

theorem bodySteps_intersection {members : List Shape} {site : Site} :
    BodySteps r (.intersection members site) (r.bodyStep (.intersection members site)) := by
  have target : r.target? (.intersection members site) = .ok none :=
    target?_of_not_splits rfl
  have own (b : Body) : b ∈ [] ↔ Shape.Holds (.intersection members site) b := ⟨nofun, nofun⟩
  refine .onward own (fun v => ⟨.member, ?_⟩) ?_
  · intro step
    cases step with
    | member mem => exact mem
    | target found =>
      rw [target] at found
      cases found
  · intro cause halts
    cases halts with
    | target found =>
      rw [target] at found
      cases found

theorem bodySteps_reference {name : Text} {arguments : List Shape} {site : Site} :
    BodySteps r (.reference name arguments site)
      (r.bodyStep (.reference name arguments site)) := by
  have own (b : Body) : b ∈ [] ↔ Shape.Holds (.reference name arguments site) b := ⟨nofun, nofun⟩
  rw [bodyStep, follow]
  split
  · next cause found => exact .halts own (.target found)
  · next t? found =>
    refine .onward own ?_ ?_
    · intro v
      rw [Option.mem_toList]
      constructor
      · rintro rfl
        exact .target found
      · intro step
        cases step with
        | target found' =>
          rw [found] at found'
          exact Except.ok.inj found'
    · intro cause halts
      cases halts with
      | target found' =>
        rw [found] at found'
        cases found'

theorem bodySteps_interface {name : Text} {declarations : List Site} :
    BodySteps r (.interface name declarations) (r.bodyStep (.interface name declarations)) := by
  have own (b : Body) : b ∈ (declarations.filterMap (·.child? .body)).map Body.written ↔
      Shape.Holds (.interface name declarations) b := by
    rw [List.mem_map]
    constructor
    · rintro ⟨site, hsite, rfl⟩
      obtain ⟨d, hd, found⟩ := List.mem_filterMap.mp hsite
      exact .interface hd found
    · intro holds
      cases holds with
      | interface hd found => exact ⟨_, List.mem_filterMap.mpr ⟨_, hd, found⟩, rfl⟩
  have target : r.target? (.interface name declarations) = .ok none :=
    target?_of_not_splits rfl
  have written : (declarations.filterMap (·.child? .body)).map
      (fun site => (.inr (.ok (.written site)) : Shape ⊕ Except Overflow Body)) =
      ((declarations.filterMap (·.child? .body)).map Body.written).map fun b => .inr (.ok b) := by
    rw [List.map_map]
    rfl
  rw [bodyStep, written]
  -- The bases are described together, so one that fails hides all of them.
  cases found : declarations.mapM Site.bases with
  | error cause =>
    obtain ⟨d, hd, fails⟩ := Outcome.exists_of_mapM_eq_error found
    exact .halts own (.base hd fails)
  | ok bases =>
    have mem := Outcome.mem_of_mapM_eq_ok found
    refine .onward own ?_ ?_
    · intro v
      rw [List.mem_flatten]
      constructor
      · rintro ⟨l, hl, hv⟩
        obtain ⟨d, hd, same⟩ := (mem l).mp hl
        exact .base hd same hv
      · intro step
        cases step with
        | target found' =>
          rw [target] at found'
          cases found'
        | base hd same hv => exact ⟨_, (mem _).mpr ⟨_, hd, same⟩, hv⟩
    · intro cause halts
      cases halts with
      | target found' =>
        rw [target] at found'
        cases found'
      | base hd fails =>
        obtain ⟨l, _, same⟩ := Outcome.exists_ok_of_mapM found hd
        rw [fails] at same
        cases same

theorem bodySteps_bodyStep (r : Resolver) (u : Shape) : BodySteps r u (r.bodyStep u) := by
  cases u with
  | intersection members site => exact bodySteps_intersection
  | reference name arguments site => exact bodySteps_reference
  | interface name declarations => exact bodySteps_interface
  | object site =>
    have own (b : Body) : b ∈ [.written site] ↔ Shape.Holds (.object site) b := by
      rw [List.mem_singleton]
      constructor
      · rintro rfl
        exact .object site
      · rintro ⟨⟩
        rfl
    exact bodySteps_alone _ (target?_of_not_splits rfl) (by simp) (by simp) own
  | record key value site =>
    have own (b : Body) :
        b ∈ [.keyed key value site] ↔ Shape.Holds (.record key value site) b := by
      rw [List.mem_singleton]
      constructor
      · rintro rfl
        exact .record key value site
      · rintro ⟨⟩
        rfl
    exact bodySteps_alone _ (target?_of_not_splits rfl) (by simp) (by simp) own
  | union members =>
    exact bodySteps_alone [] (target?_of_not_reference (by simp)) (by simp) (by simp)
      (fun b => ⟨nofun, nofun⟩)
  | primitive | literal | verbatim =>
    exact bodySteps_alone [] (target?_of_not_splits rfl) (by simp) (by simp)
      (fun b => ⟨nofun, nofun⟩)

namespace BodySteps

variable {steps : List (Shape ⊕ Except Overflow Body)}

theorem ok_mem_iff (h : BodySteps r u steps) : .inr (.ok b) ∈ steps ↔ u.Holds b := by
  cases h with
  | onward own _ _ => simp [own]
  | halts own _ => simp [own]

theorem inherits_of_mem (h : BodySteps r u steps) (mem : .inl v ∈ steps) : r.Inherits u v := by
  cases h with
  | onward _ inherits _ => simpa [inherits] using mem
  | halts _ _ => simp at mem

theorem halts_of_mem (h : BodySteps r u steps) (mem : .inr (.error cause) ∈ steps) :
    r.Halts u cause := by
  cases h with
  | onward _ _ _ => simp at mem
  | @halts _ cause' _ halts =>
    have same : cause = cause' := by simpa using mem
    exact same ▸ halts

theorem mem_or_error (h : BodySteps r u steps) (step : r.Inherits u v) :
    .inl v ∈ steps ∨ ∃ cause, .inr (.error cause) ∈ steps := by
  cases h with
  | onward _ inherits _ => exact .inl (by simp [inherits, step])
  | @halts _ cause _ _ => exact .inr ⟨cause, by simp⟩

theorem exists_error (h : BodySteps r u steps) (halts : r.Halts u cause) :
    ∃ cause, .inr (.error cause) ∈ steps := by
  cases h with
  | onward _ _ sound => exact absurd halts (sound cause)
  | @halts _ cause _ _ => exact ⟨cause, by simp⟩

end BodySteps

/-! ### Bodies by reachability -/

/-- The types that a type has the members of, after any number of steps. -/
def Includes (r : Resolver) : Shape → Shape → Prop := ReflTransGen r.Inherits

/-- The bodies that a type has members from. -/
def HasBody (r : Resolver) (s : Shape) (b : Body) : Prop := ∃ u, r.Includes s u ∧ u.Holds b

/-- An object type has the members that are written in it and no others. -/
theorem includes_object_iff {site : Site} : r.Includes (.object site) u ↔ u = .object site := by
  constructor
  · intro path
    rcases path.cases_head with rfl | ⟨v, step, _⟩
    · rfl
    · cases step with
      | target found =>
        rw [target?_of_not_splits rfl] at found
        cases found
  · rintro rfl
    exact .refl

theorem hasBody_object_iff {site : Site} : r.HasBody (.object site) b ↔ b = .written site := by
  constructor
  · rintro ⟨u, path, holds⟩
    cases includes_object_iff.mp path
    cases holds
    rfl
  · rintro rfl
    exact ⟨_, .refl, .object site⟩

section

variable {known : SourceFile → Prop} {p : Program} (lib : Library known) (hp : p.Of known)
  (hs : s.Genuine known)

include lib hp hs

theorem near_of_inherits (hu : Shape.Near p s u) (step : (program p).Inherits u v) :
    Shape.Near p s v := by
  cases step with
  | member mem =>
    have small := hu.size
    have inside := Shape.size_le_sizes mem
    rw [Shape.size] at small
    cases hu.genuine with
    | intersection _ _ _ members => exact ⟨members _ mem, by omega⟩
  | target found => exact hu.target hs hp lib found
  | base hd found hv =>
    cases hu.genuine with
    | interface declared =>
      obtain ⟨site, hsite, shape⟩ := (Outcome.mem_of_mapM_eq_ok found _).mp hv
      obtain ⟨clause, hclause, inside⟩ := List.mem_flatMap.mp hsite
      have of := ((declared.of_mem hd).1.named (List.mem_of_mem_filter hclause)).named inside
      exact Shape.Near.written hs of shape

theorem near_of_includes (path : (program p).Includes s u) : Shape.Near p s u := by
  induction path with
  | refl => exact Shape.near_self hs
  | tail _ step ih => exact near_of_inherits lib hp hs ih step

/-- An interface that can be reached has all declarations of its scope. -/
theorem declared_of_includes {name : Text} {declarations : List Site}
    (path : (program p).Includes s (.interface name declarations)) :
    Declared known declarations := by
  cases (near_of_includes lib hp hs path).genuine_known hs hp with
  | interface declared => exact declared

omit lib hp hs in
theorem token?_of_inherits (step : (program p).Inherits u v) : u.token? ≠ none := by
  cases step with
  | member => nofun
  | target found =>
    obtain ⟨_, _, _, rfl⟩ := Program.reference_of_target found
    nofun
  | base hd _ _ =>
    obtain ⟨first, rest, rfl⟩ := List.exists_cons_of_ne_nil (List.ne_nil_of_mem hd)
    nofun

/-- The types that can be reached, with the search for bodies, are a graph with keys. -/
theorem keyed_bodyStep :
    Search.Keyed Shape.token? (program p).bodyStep (Shape.Near p s)
      ((p.filesFrom s).flatMap SourceFile.tokens) Shape.size (s.weight + p.weight) := by
  have inherits {u v : Shape} (step : Search.Leads (program p).bodyStep u v) :
      (program p).Inherits u v := (bodySteps_bodyStep _ u).inherits_of_mem step
  exact Shape.keyed hs hp lib
    (fun u v hu step => near_of_inherits lib hp hs hu (inherits step))
    (fun alike => by cases alike <;> rfl)
    (fun none step => absurd none (token?_of_inherits (inherits step)))

omit lib hp hs in
theorem bodies_program :
    (program p).bodies s =
      Search.along Shape.token? (program p).bodyStep ((program p).bound s) [] s := by
  have names : (program p).resolvesNames = true := rfl
  rw [bodies, if_pos names]

/-- The search meets what the types that it can reach lead to. -/
theorem mem_bodies_iff {x : Except Overflow Body} :
    x ∈ (program p).bodies s ↔
      ∃ u, ReflTransGen (Search.Leads (program p).bodyStep) s u ∧
        .inr x ∈ (program p).bodyStep u := by
  rw [bodies_program]
  exact (keyed_bodyStep lib hp hs).mem_along_iff (Shape.near_self hs) (Shape.bound_filesFrom hs)

omit lib hp hs in
theorem includes_of_leads (path : ReflTransGen (Search.Leads (program p).bodyStep) s u) :
    (program p).Includes s u :=
  path.lift id fun a _ step => (bodySteps_bodyStep _ a).inherits_of_mem step

theorem exists_halt_of_mem_bodies (h : .error cause ∈ (program p).bodies s) :
    ∃ u, (program p).Includes s u ∧ (program p).Halts u cause := by
  obtain ⟨u, path, failure⟩ := (mem_bodies_iff lib hp hs).mp h
  exact ⟨u, includes_of_leads path, (bodySteps_bodyStep _ u).halts_of_mem failure⟩

/-- Where nothing fails, the search follows every way. -/
theorem leads_of_includes (sound : ∀ cause, .error cause ∉ (program p).bodies s)
    (path : (program p).Includes s u) :
    ReflTransGen (Search.Leads (program p).bodyStep) s u := by
  induction path with
  | refl => exact .refl
  | @tail a b _ step ih =>
    rcases (bodySteps_bodyStep _ a).mem_or_error step with next | ⟨cause, failure⟩
    · exact ih.tail next
    · exact absurd ((mem_bodies_iff lib hp hs).mpr ⟨a, ih, failure⟩) (sound cause)

/-- Where nothing fails, the bodies are those of all types that can be reached, and none of these
types keeps from telling what it inherits from. -/
theorem mapM_bodies_eq_ok {bodies : List Body} (h : ((program p).bodies s).mapM id = .ok bodies) :
    (∀ b, b ∈ bodies ↔ (program p).HasBody s b) ∧
      ∀ u cause, (program p).Includes s u → ¬ (program p).Halts u cause := by
  have values := Outcome.mapM_id_eq_ok.mp h
  have sound (cause : Overflow) : .error cause ∉ (program p).bodies s := by
    rw [values]
    simp
  refine ⟨?_, ?_⟩
  · intro b
    have mem : b ∈ bodies ↔ .ok b ∈ (program p).bodies s := by
      rw [values]
      simp
    rw [mem, mem_bodies_iff lib hp hs]
    constructor
    · rintro ⟨u, path, body⟩
      exact ⟨u, includes_of_leads path, (bodySteps_bodyStep _ u).ok_mem_iff.mp body⟩
    · rintro ⟨u, path, holds⟩
      exact ⟨u, leads_of_includes lib hp hs sound path,
        (bodySteps_bodyStep _ u).ok_mem_iff.mpr holds⟩
  · intro u cause path halts
    obtain ⟨cause', failure⟩ := (bodySteps_bodyStep _ u).exists_error halts
    exact sound cause' ((mem_bodies_iff lib hp hs).mpr
      ⟨u, leads_of_includes lib hp hs sound path, failure⟩)

end

end Resolver

end ParamSchema
