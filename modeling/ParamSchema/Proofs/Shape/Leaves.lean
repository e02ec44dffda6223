import ParamSchema.Proofs.Shape.Classification

/-!
The leaves of a type by equations. A union has the leaves of its members that have a value, one
after the other (`Resolver.leaves_union`). A reference has the leaves of what it stands for, unless
it is met again there (`Resolver.leaves_target`). And the leaves depend on the resolver only at the
types that can be reached (`Resolver.leaves_congr`).
-/

namespace ParamSchema

namespace Shape

/-- The members of a union that have a value. -/
def valued (members : List Shape) : List Shape := members.filter (!·.isNullish)

theorem genuine_union_iff {known : SourceFile → Prop} {ms : List Shape} :
    (Shape.union ms).Genuine known ↔ ∀ m ∈ ms, m.Genuine known := by
  constructor
  · intro h
    cases h with
    | union inside => exact inside
  · exact .union

end Shape

namespace Resolver

variable {r : Resolver} {s t : Shape} {members : List Shape}

/-- Where names lead nowhere, no files are needed. -/
theorem textual_of {known : SourceFile → Prop} : textual.Of known := by
  intro m mem
  cases mem

/-- A text of a type with a leaf without a kind is unknown. -/
theorem typeText_eq_unknown {leaf : Leaf} {text : Text} (mem : .ok leaf ∈ r.leaves s)
    (none : leaf.kind? = none) (h : r.typeText s = .ok text) : text = txt "unknown" := by
  rcases leafKinds_cases (r.leaves s) with ⟨kinds, _, all, _⟩ | ⟨eq, _⟩ | ⟨cause, eq, _⟩
  · obtain ⟨_, kind, same, some⟩ := all _ mem
    cases same
    rw [none] at some
    cases some
  · rw [typeText, eq] at h
    cases h
    rfl
  · rw [typeText, eq] at h
    cases h

theorem exists_bound (r : Resolver) (s : Shape) : ∃ n, r.bound s = n + 1 :=
  Nat.exists_eq_add_one.mpr (Nat.mul_pos (Nat.succ_pos _) (Nat.succ_pos _))

theorem bound_lt_of_mem {m : Shape} (mem : m ∈ members) :
    r.bound m < r.bound (.union members) := by
  have small : m.weight ≤ Shape.weights members := by
    induction members with
    | nil => cases mem
    | cons first rest ih =>
      rw [Shape.weights]
      rcases List.mem_cons.mp mem with rfl | mem
      · exact Nat.le_add_right _ _
      · exact Nat.le_trans (ih mem) (Nat.le_add_left _ _)
  simp only [bound, Shape.weight]
  apply Nat.mul_lt_mul_of_lt_of_lt <;> omega

section

variable {known : SourceFile → Prop} (lib : Library known) (hr : r.Of known)

include lib hr

theorem genuine_of_reaches (hs : s.Genuine known) (h : r.Reaches s t) : t.Genuine known := by
  induction h with
  | refl => exact hs
  | tail _ step ih =>
    cases step with
    | member mem _ => exact Shape.genuine_union_iff.mp ih _ mem
    | target found => exact Program.genuine_target lib hr ih (target?_base found)

/-- Any larger bound gives the same leaves. -/
theorem along_eq_leaves (hs : s.Genuine known) {n : Nat} (enough : r.bound s ≤ n) :
    Search.along Shape.token? r.leafStep n [] s = r.leaves s :=
  let g := keyed_leafStep lib hr hs
  g.along_of_le (Shape.near_self hs) List.nodup_nil (List.nil_subset _)
    (g.room_at_start (Shape.near_self hs) (bound_base hs)) enough

/-- The leaves of a union are those of its members with a value; without such a member it is a leaf
itself. -/
theorem leaves_union (hs : (Shape.union members).Genuine known) :
    r.leaves (.union members) =
      if Shape.valued members = [] then [.ok .other]
      else (Shape.valued members).flatMap r.leaves := by
  have inside := Shape.genuine_union_iff.mp hs
  obtain ⟨n, bound⟩ := exists_bound r (.union members)
  rw [leaves, bound, Search.along, if_neg (by simp [Shape.token?]), leafStep, ← Shape.valued]
  split
  · next empty =>
    rw [if_pos empty]
    rfl
  · next some =>
    rw [if_neg some, List.flatMap_map]
    apply List.flatMap_congr
    intro m mem
    have mem' : m ∈ members := List.mem_of_mem_filter mem
    have enough : r.bound m < n + 1 := bound ▸ bound_lt_of_mem mem'
    exact along_eq_leaves lib hr (inside m mem') (Nat.le_of_lt_succ enough)

/-- A reference that is not met below itself has the leaves of what it stands for. -/
theorem leaves_target (hs : s.Genuine known) (found : r.target? s = .ok (some t))
    (apart : ∀ u, r.Reaches t u → u.token? ≠ s.token?) : r.leaves s = r.leaves t := by
  obtain ⟨name, arguments, site, rfl⟩ := Program.reference_of_target (target?_base found)
  have ht : t.Genuine known := Program.genuine_target lib hr hs (target?_base found)
  obtain ⟨n, bound⟩ := exists_bound r (.reference name arguments site)
  have step : Search.Leads r.leafStep (.reference name arguments site) t :=
    leads_leafStep (r := r) ▸ .target found
  have g := keyed_leafStep lib hr hs
  have start := g.room_at_start (Shape.near_self hs) (bound_base hs)
  obtain ⟨distinct, inKeys, room⟩ := g.room_behind (Shape.near_self hs) List.nodup_nil
    (List.nil_subset _) (by simp [Shape.token?]) (bound ▸ start) step
  have near := g.closed _ _ (Shape.near_self hs) step
  -- Both searches are taken to a bound that is large enough for either.
  calc r.leaves (.reference name arguments site)
    _ = Search.along Shape.token? r.leafStep n [site.token 2] t := by
      rw [leaves, bound, Search.along, if_neg (by simp [Shape.token?]), leafStep, found]
      exact List.flatMap_singleton ..
    _ = Search.along Shape.token? r.leafStep (max n (r.bound t)) [site.token 2] t :=
      (g.along_of_le near distinct inKeys room (Nat.le_max_left ..)).symm
    _ = Search.along Shape.token? r.leafStep (max n (r.bound t)) [] t := by
      apply Search.along_congr
      · intro u _
        rfl
      · intro u reached k hk
        have other : k ≠ site.token 2 := by
          rintro rfl
          rw [leads_leafStep] at reached
          exact apart u reached hk
        simp [other]
    _ = r.leaves t := along_eq_leaves lib hr ht (Nat.le_max_right ..)

/-- Leaves depend only on what is known about the types that can be reached. -/
theorem leaves_congr {r' : Resolver} (hr' : r'.Of known) (hs : s.Genuine known)
    (same : ∀ u, r.Reaches s u → r.leafStep u = r'.leafStep u) :
    r.leaves s = r'.leaves s := by
  rw [← along_eq_leaves lib hr hs (Nat.le_max_left (r.bound s) (r'.bound s)),
    ← along_eq_leaves lib hr' hs (Nat.le_max_right (r.bound s) (r'.bound s))]
  apply Search.along_congr
  · intro u reached
    rw [leads_leafStep] at reached
    exact same u reached
  · intro u _ k _
    rfl

end

end Resolver

end ParamSchema
