import ParamSchema.Proofs.Shape.Bodies
import ParamSchema.Shape.Leaves

/-!
The members of a body: the names that are written in it or that its keys give, and the types of keys
that it has an index type for. What is computed for a body is compared with these descriptions
(`Resolver.bodyProperties_eq_ok`, `Resolver.bodyIndex?_eq_ok`).
-/

namespace ParamSchema

open Relation (ReflTransGen)
open Outcome (bind_eq_ok bind_eq_error)

namespace Site

/-- A member that declares a property or a method. -/
def DeclaresProperty (member : Site) : Prop :=
  member.node.kind = .propertySignature ∨ member.node.kind = .methodSignature

/-- A member that declares an index signature for a type of keys. -/
def DeclaresIndex (member : Site) (key : IndexKey) : Prop :=
  member.node.kind = .indexSignature ∧ member.indexKey? = some key

theorem shape_of_objectType {s : Site} (h : s.node.kind = .objectType) :
    s.shape = .ok (.object s) := by
  rw [shape]
  cases node : s.node with
  | mk kind role start stop line children =>
    rw [node] at h
    cases h
    rw [SourceFile.shapeAt]
    rfl

end Site

namespace Body

variable {r : Resolver}

/-- The names of the members of a body: those written in it, or the literal keys that its type of
keys spreads into. -/
inductive Names (r : Resolver) : Body → Text → Prop where
  | written {body member : Site} {name : Text} :
      member ∈ body.named → member.DeclaresProperty →
      member.file.propertyName (member.node.child? .name) = .ok name →
      Names r (.written body) name
  | text {key value : Shape} {site : Site} {name : Text} :
      ReflTransGen r.Spreads key (.literal (.text name)) → Names r (.keyed key value site) name
  | number {key value : Shape} {site : Site} {x : Double} :
      ReflTransGen r.Spreads key (.literal (.number x)) → Names r (.keyed key value site) x.text

/-- The types of keys that a body has an index type for. -/
inductive Indexes (r : Resolver) : Body → IndexKey → Prop where
  | written {body member : Site} {key : IndexKey} :
      member ∈ body.named → member.DeclaresIndex key → Indexes r (.written body) key
  | keyed {keys value : Shape} {site : Site} {key : IndexKey} :
      ReflTransGen r.Spreads keys (.primitive key.text) → Indexes r (.keyed keys value site) key

/-- The index types of a body. -/
inductive IndexValue (r : Resolver) : Body → IndexKey → Shape → Prop where
  | written {body member : Site} {key : IndexKey} {value : Shape} :
      member ∈ body.named → member.indexSignature? = .ok (some (key, value)) →
      IndexValue r (.written body) key value
  | keyed {keys value : Shape} {site : Site} {key : IndexKey} :
      ReflTransGen r.Spreads keys (.primitive key.text) →
      IndexValue r (.keyed keys value site) key value

/-- The members of a body cannot be told. -/
inductive Fails (r : Resolver) : Body → Overflow → Prop where
  | member {body member : Site} {cause : Overflow} :
      member ∈ body.named → member.property? = .error cause → Fails r (.written body) cause
  | key {key value u : Shape} {site : Site} {cause : Overflow} :
      ReflTransGen r.Spreads key u → r.target? u = .error cause →
      Fails r (.keyed key value site) cause

/-- The index types of a body or their kinds cannot be told. -/
inductive IndexFails (r : Resolver) : Body → Overflow → Prop where
  | signature {body member : Site} {cause : Overflow} :
      member ∈ body.named → member.indexSignature? = .error cause →
      IndexFails r (.written body) cause
  | value {b : Body} {key : IndexKey} {value : Shape} {cause : Overflow} :
      IndexValue r b key value → r.typeText value = .error cause → IndexFails r b cause

end Body

/-! ### Written members -/

namespace Site

variable {member body : Site} {cause : Overflow}

theorem property?_eq_ok {x : Option Property} (h : member.property? = .ok x) :
    (member.DeclaresProperty ∧ ∃ q, x = some q ∧
      member.file.propertyName (member.node.child? .name) = .ok q.name) ∨
    (¬ member.DeclaresProperty ∧ x = none) := by
  rw [property?] at h
  split at h
  · next kind =>
    obtain ⟨shape, _, h⟩ := bind_eq_ok.mp h
    obtain ⟨name, hname, h⟩ := bind_eq_ok.mp h
    cases h
    exact .inl ⟨.inl kind, _, rfl, hname⟩
  · next kind =>
    obtain ⟨name, hname, h⟩ := bind_eq_ok.mp h
    cases h
    exact .inl ⟨.inr kind, _, rfl, hname⟩
  · next property method =>
    cases h
    exact .inr ⟨fun declares => declares.elim property method, rfl⟩

theorem indexSignature?_eq_ok {x : Option (IndexKey × Shape)} (h : member.indexSignature? = .ok x) :
    (∃ key value, member.DeclaresIndex key ∧ x = some (key, value)) ∨
    ((∀ key, ¬ member.DeclaresIndex key) ∧ x = none) := by
  rw [indexSignature?] at h
  split at h
  · next kind =>
    cases h
    exact .inr ⟨fun key declares => absurd declares.1 (by simpa using kind), rfl⟩
  · next kind =>
    have kind' : member.node.kind = .indexSignature := by simpa using kind
    cases found : member.indexKey? with
    | none =>
      rw [found] at h
      cases h
      refine .inr ⟨?_, rfl⟩
      intro key declares
      rw [DeclaresIndex, found] at declares
      cases declares.2
    | some key =>
      rw [found] at h
      obtain ⟨value, _, h⟩ := bind_eq_ok.mp h
      cases h
      exact .inl ⟨key, value, ⟨kind', found⟩, rfl⟩

theorem properties_eq_ok {ps : List Property} (h : body.properties = .ok ps) (name : Text) :
    (∃ q ∈ ps, q.name = name) ↔ ∃ member ∈ body.named, member.DeclaresProperty ∧
      member.file.propertyName (member.node.child? .name) = .ok name := by
  obtain ⟨found, hfound, h⟩ := bind_eq_ok.mp h
  cases h
  have mem := Outcome.mem_of_mapM_eq_ok hfound
  constructor
  · rintro ⟨q, hq, rfl⟩
    obtain ⟨x, hx, same⟩ := List.mem_filterMap.mp hq
    obtain ⟨member, hmember, property⟩ := (mem x).mp hx
    rcases property?_eq_ok property with ⟨declares, q', rfl, hname⟩ | ⟨_, rfl⟩
    · cases same
      exact ⟨member, hmember, declares, hname⟩
    · cases same
  · rintro ⟨member, hmember, declares, hname⟩
    obtain ⟨x, hx, property⟩ := Outcome.exists_ok_of_mapM hfound hmember
    rcases property?_eq_ok property with ⟨_, q, rfl, hname'⟩ | ⟨not, _⟩
    · rw [hname] at hname'
      exact ⟨q, List.mem_filterMap.mpr ⟨_, hx, rfl⟩, (Except.ok.inj hname').symm⟩
    · exact absurd declares not

theorem indexSignatures_eq_ok {signatures : List (IndexKey × Shape)}
    (h : body.indexSignatures = .ok signatures) :
    (∀ key, (∃ value, (key, value) ∈ signatures) ↔
      ∃ member ∈ body.named, member.DeclaresIndex key) ∧
    ∀ key value, (key, value) ∈ signatures →
      ∃ member ∈ body.named, member.indexSignature? = .ok (some (key, value)) := by
  obtain ⟨found, hfound, h⟩ := bind_eq_ok.mp h
  cases h
  have mem := Outcome.mem_of_mapM_eq_ok hfound
  have inside (key : IndexKey) (value : Shape) (h : (key, value) ∈ found.filterMap id) :
      ∃ member ∈ body.named, member.indexSignature? = .ok (some (key, value)) := by
    obtain ⟨x, hx, same⟩ := List.mem_filterMap.mp h
    cases same
    exact (mem _).mp hx
  refine ⟨fun key => ⟨?_, ?_⟩, inside⟩
  · rintro ⟨value, hvalue⟩
    obtain ⟨member, hmember, signature⟩ := inside key value hvalue
    rcases indexSignature?_eq_ok signature with ⟨key', value', declares, same⟩ | ⟨_, same⟩
    · cases same
      exact ⟨member, hmember, declares⟩
    · cases same
  · rintro ⟨member, hmember, declares⟩
    obtain ⟨x, hx, signature⟩ := Outcome.exists_ok_of_mapM hfound hmember
    rcases indexSignature?_eq_ok signature with ⟨key', value, declares', rfl⟩ | ⟨not, _⟩
    · obtain rfl : key' = key := Option.some.inj (declares'.2.symm.trans declares.2)
      exact ⟨value, List.mem_filterMap.mpr ⟨_, hx, rfl⟩⟩
    · exact absurd declares (not key)

end Site

/-! ### Bodies -/

namespace Resolver

variable {known : SourceFile → Prop} {p : Program} {b : Body} {cause : Overflow}

/-- A body with a type of keys that is genuine. -/
def GenuineKeys (known : SourceFile → Prop) : Body → Prop
  | .written _ => True
  | .keyed key _ _ => key.Genuine known

theorem keyProperty?_eq_some_iff {value key : Shape} {site : Site} {name : Text} :
    (∃ q, keyProperty? value site key = some q ∧ q.name = name) ↔
      key = .literal (.text name) ∨ ∃ x : Double, key = .literal (.number x) ∧ x.text = name := by
  constructor
  · rintro ⟨q, found, rfl⟩
    unfold keyProperty? at found
    split at found
    · cases found
      exact .inl rfl
    · cases found
      exact .inr ⟨_, rfl, rfl⟩
    · cases found
  · rintro (rfl | ⟨x, rfl, rfl⟩)
    · exact ⟨_, rfl, rfl⟩
    · exact ⟨_, rfl, rfl⟩

theorem bodyProperties_eq_error (h : (program p).bodyProperties b = .error cause) :
    b.Fails (program p) cause := by
  cases b with
  | written site =>
    rcases bind_eq_error.mp h with h | ⟨_, _, h⟩
    · obtain ⟨member, hmember, fails⟩ := Outcome.exists_of_mapM_eq_error h
      exact .member hmember fails
    · cases h
  | keyed key value site =>
    rcases bind_eq_error.mp h with h | ⟨_, _, h⟩
    · obtain ⟨u, path, fails⟩ := exists_failure_of_keys h
      exact .key path fails
    · cases h

theorem bodyIndex?_eq_error {key : IndexKey} (h : (program p).bodyIndex? key b = .error cause) :
    b.Fails (program p) cause ∨ b.IndexFails (program p) cause := by
  cases b with
  | written site =>
    rcases bind_eq_error.mp h with h | ⟨_, _, h⟩
    · rcases bind_eq_error.mp h with h | ⟨_, _, h⟩
      · obtain ⟨member, hmember, fails⟩ := Outcome.exists_of_mapM_eq_error h
        exact .inr (.signature hmember fails)
      · cases h
    · cases h
  | keyed keys value site =>
    rcases bind_eq_error.mp h with h | ⟨_, _, h⟩
    · obtain ⟨u, path, fails⟩ := exists_failure_of_keys h
      exact .inl (.key path fails)
    · cases h

section

variable (lib : Library known) (hp : p.Of known) (hb : GenuineKeys known b)

include lib hp hb

/-- The properties of a body have the names of its members. -/
theorem bodyProperties_eq_ok {ps : List Property} (h : (program p).bodyProperties b = .ok ps) :
    (∀ name, (∃ q ∈ ps, q.name = name) ↔ b.Names (program p) name) ∧
      ∀ cause, ¬ b.Fails (program p) cause := by
  cases b with
  | written site =>
    refine ⟨?_, ?_⟩
    · intro name
      rw [Site.properties_eq_ok h]
      constructor
      · rintro ⟨member, hmember, declares, hname⟩
        exact .written hmember declares hname
      · rintro ⟨hmember, declares, hname⟩
        exact ⟨_, hmember, declares, hname⟩
    · intro cause fails
      obtain ⟨found, hfound, _⟩ := bind_eq_ok.mp h
      cases fails with
      | member hmember fails =>
        obtain ⟨_, _, fine⟩ := Outcome.exists_ok_of_mapM hfound hmember
        rw [fails] at fine
        cases fine
  | keyed key value site =>
    obtain ⟨keys, hkeys, h⟩ := bind_eq_ok.mp h
    cases h
    refine ⟨?_, ?_⟩
    · intro name
      have reached (u : Shape) : u ∈ keys ↔ _ := mem_keys_iff lib hp hb hkeys
      constructor
      · rintro ⟨q, hq, hname⟩
        obtain ⟨u, hu, found⟩ := List.mem_filterMap.mp hq
        have path := ((reached u).mp hu).1
        rcases keyProperty?_eq_some_iff.mp ⟨q, found, hname⟩ with rfl | ⟨x, rfl, rfl⟩
        · exact .text path
        · exact .number path
      · intro names
        have given (u : Shape) (path : ReflTransGen (program p).Spreads key u)
            (split : u.splits = false)
            (named : ∃ q, keyProperty? value site u = some q ∧ q.name = name) :
            ∃ q ∈ keys.filterMap (keyProperty? value site), q.name = name := by
          obtain ⟨q, found, hname⟩ := named
          exact ⟨q, List.mem_filterMap.mpr ⟨u, (reached u).mpr ⟨path, split⟩, found⟩, hname⟩
        cases names with
        | text path => exact given _ path rfl ⟨_, rfl, rfl⟩
        | number path => exact given _ path rfl ⟨_, rfl, rfl⟩
    · intro cause fails
      cases fails with
      | key path fails =>
        obtain ⟨_, fine⟩ := exists_target_of_keys lib hp hb hkeys path
        rw [fails] at fine
        cases fine

omit lib hp hb in
theorem bodyIndex?_written {site : Site} {key : IndexKey} {value? : Option Shape}
    (h : (program p).bodyIndex? key (.written site) = .ok value?) :
    (value?.isSome ↔ Body.Indexes (program p) (.written site) key) ∧
      ∀ value ∈ value?, Body.IndexValue (program p) (.written site) key value := by
  obtain ⟨signatures, hsignatures, h⟩ := bind_eq_ok.mp h
  cases h
  obtain ⟨declared, inside⟩ := Site.indexSignatures_eq_ok hsignatures
  cases found : signatures.find? (·.1 == key) with
  | none =>
    refine ⟨⟨nofun, ?_⟩, nofun⟩
    intro indexes
    cases indexes with
    | written hmember declares =>
      obtain ⟨value, hvalue⟩ := (declared key).mpr ⟨_, hmember, declares⟩
      exact absurd BEq.rfl (List.find?_eq_none.mp found _ hvalue)
  | some signature =>
    obtain ⟨key', value⟩ := signature
    have mem := List.mem_of_find?_eq_some found
    have matching := List.find?_some found
    obtain rfl : key' = key := eq_of_beq matching
    obtain ⟨member, hmember, declares⟩ := (declared key').mp ⟨value, mem⟩
    obtain ⟨member', hmember', signature⟩ := inside key' value mem
    refine ⟨⟨fun _ => .written hmember declares, fun _ => rfl⟩, ?_⟩
    intro v hv
    cases hv
    exact .written hmember' signature

/-- A body has an index type for the types of keys that it has members for. -/
theorem bodyIndex?_eq_ok {key : IndexKey} {value? : Option Shape}
    (h : (program p).bodyIndex? key b = .ok value?) :
    (value?.isSome ↔ b.Indexes (program p) key) ∧
      ∀ value ∈ value?, b.IndexValue (program p) key value := by
  cases b with
  | written site => exact bodyIndex?_written h
  | keyed keys value site =>
    obtain ⟨ks, hks, h⟩ := bind_eq_ok.mp h
    cases h
    have reached : ks.any (isIndex key) = true ↔
        ReflTransGen (program p).Spreads keys (.primitive key.text) := by
      simp only [List.any_eq_true, mem_keys_iff lib hp hb hks]
      constructor
      · rintro ⟨u, ⟨path, _⟩, index⟩
        cases u with
        | primitive name => exact eq_of_beq index ▸ path
        | _ => cases index
      · intro path
        exact ⟨_, ⟨path, rfl⟩, BEq.rfl⟩
    split
    · next any =>
      have path := reached.mp any
      refine ⟨⟨fun _ => .keyed path, fun _ => rfl⟩, ?_⟩
      intro v hv
      cases hv
      exact .keyed path
    · next none =>
      refine ⟨⟨nofun, ?_⟩, nofun⟩
      intro indexes
      cases indexes with
      | keyed path => exact absurd (reached.mpr path) none

end

end Resolver

end ParamSchema
