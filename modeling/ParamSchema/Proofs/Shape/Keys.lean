import ParamSchema.Proofs.Shape.Identity
import ParamSchema.Shape.Members

/-!
The keys of a type of keys by reachability. A type spreads into the members of its unions and into
what its references stand for (`Resolver.Spreads`). The search for keys enters every reference once
and never again; the keys that it gives are all that can be reached (`Resolver.mem_keys_iff`), and
it gives none exactly when a reference that can be reached fails
(`Resolver.exists_failure_of_keys`, `Resolver.exists_target_of_keys`).
-/

namespace ParamSchema

/-- Whether a type is made of others, so that it is no key itself. -/
def Shape.splits : Shape → Bool
  | .union _ => true
  | .reference .. => true
  | _ => false

theorem Shape.size_pos (s : Shape) : 0 < s.size := by
  cases s <;> simp [Shape.size]

namespace Resolver

open Relation (ReflTransGen)
open Search (Free Route)
open Outcome (bind_eq_ok bind_eq_error)

variable {r : Resolver} {s t u v : Shape}

/-- A union spreads into its members, a reference into what it stands for. -/
inductive Spreads (r : Resolver) : Shape → Shape → Prop where
  | member {members : List Shape} {m : Shape} : m ∈ members → Spreads r (.union members) m
  | target {s t : Shape} : r.target? s = .ok (some t) → Spreads r s t

theorem target?_of_not_reference (h : ∀ name arguments site, s ≠ .reference name arguments site) :
    r.target? s = .ok none := by
  cases r with
  | textual => rfl
  | program p =>
    cases s with
    | reference name arguments site => exact absurd rfl (h name arguments site)
    | _ => rfl

theorem target?_of_not_splits (h : s.splits = false) : r.target? s = .ok none :=
  target?_of_not_reference fun _ _ _ same => by
    rw [same] at h
    cases h

theorem splits_of_spreads (step : r.Spreads u v) : u.splits = true := by
  cases step with
  | member => rfl
  | target found =>
    by_contra h
    rw [target?_of_not_splits (Bool.eq_false_of_not_eq_true h)] at found
    cases found

/-- The program that names are looked up in; it is empty where names lead nowhere. -/
def base : Resolver → Program
  | .textual => ⟨[]⟩
  | .program p => p

/-- A resolver that looks names up in known files. -/
def Of (known : SourceFile → Prop) (r : Resolver) : Prop := r.base.Of known

theorem target?_base (found : r.target? s = .ok (some t)) : r.base.target? s = .ok (some t) := by
  cases r with
  | textual => cases found
  | program p => exact found

theorem near_of_spreads {known : SourceFile → Prop} (lib : Library known) (hr : r.Of known)
    (hs : s.Genuine known) (hu : Shape.Near r.base s u) (step : r.Spreads u v) :
    Shape.Near r.base s v := by
  cases step with
  | member mem =>
    have small := hu.size
    have inside := Shape.size_le_sizes mem
    rw [Shape.size] at small
    cases hu.genuine with
    | union members => exact ⟨members _ mem, by omega⟩
  | target found => exact hu.target hs hr lib (target?_base found)

/-! ### One step of the search -/

/-- What the search for keys does with the first type of its stack. -/
inductive KeyStep (r : Resolver) (n : Nat) (seen : List Token) (s : Shape) (rest : List Shape) :
    Except Overflow (List Shape) → Prop where
  | union {members : List Shape} :
      s = .union members → KeyStep r n seen s rest (r.keysFrom n seen (members ++ rest))
  | again {k : Token} :
      s.token? = some k → k ∈ seen → KeyStep r n seen s rest (r.keysFrom n seen rest)
  | fails {cause : Overflow} :
      r.target? s = .error cause → KeyStep r n seen s rest (.error cause)
  | target {k : Token} {t? : Option Shape} :
      s.splits = true → s.token? = some k → k ∉ seen → r.target? s = .ok t? →
      KeyStep r n seen s rest (r.keysFrom n (k :: seen) (t?.toList ++ rest))
  | key :
      s.splits = false →
      KeyStep r n seen s rest (do return s :: (← r.keysFrom n seen rest))

theorem keyStep_keysFrom (r : Resolver) (n : Nat) (seen : List Token) (s : Shape)
    (rest : List Shape) : KeyStep r n seen s rest (r.keysFrom (n + 1) seen (s :: rest)) := by
  cases s with
  | union members => exact .union rfl
  | reference name arguments site =>
    rw [keysFrom]
    split
    · next mem => exact .again rfl (List.contains_iff_mem.mp mem)
    · next new =>
      have new' : site.token 2 ∉ seen := fun mem => new (List.contains_iff_mem.mpr mem)
      cases found : r.target? (.reference name arguments site) with
      | error cause => exact .fails found
      | ok t? => exact .target rfl rfl new' found
  | primitive | literal | intersection | object | record | interface | verbatim => exact .key rfl

/-! ### What the search gives -/

/-- A type that one of the types on a stack spreads into. -/
def SpreadFrom (r : Resolver) (stack : List Shape) (u : Shape) : Prop :=
  ∃ s ∈ stack, ReflTransGen r.Spreads s u

theorem SpreadFrom.cons {rest : List Shape} (h : r.SpreadFrom rest u) :
    r.SpreadFrom (s :: rest) u := by
  obtain ⟨t, ht, path⟩ := h
  exact ⟨t, List.mem_cons_of_mem _ ht, path⟩

theorem SpreadFrom.spread {ts rest : List Shape} (step : ∀ t ∈ ts, r.Spreads s t)
    (h : r.SpreadFrom (ts ++ rest) u) : r.SpreadFrom (s :: rest) u := by
  obtain ⟨t, ht, path⟩ := h
  rcases List.mem_append.mp ht with ht | ht
  · exact ⟨s, List.mem_cons_self, path.head (step t ht)⟩
  · exact ⟨t, List.mem_cons_of_mem _ ht, path⟩

theorem spreads_of_mem_target {t? : Option Shape} (found : r.target? s = .ok t?) :
    ∀ t ∈ t?.toList, r.Spreads s t := by
  intro t ht
  rw [Option.mem_toList] at ht
  exact .target (ht ▸ found)

/-- The search gives keys that can be reached, and fails where a reference that can be reached
does. -/
theorem keysFrom_reaches (r : Resolver) (n : Nat) (seen : List Token) (stack : List Shape) :
    (∀ ks, r.keysFrom n seen stack = .ok ks →
      ∀ u ∈ ks, u.splits = false ∧ r.SpreadFrom stack u) ∧
    (∀ cause, r.keysFrom n seen stack = .error cause →
      ∃ u, r.SpreadFrom stack u ∧ r.target? u = .error cause) := by
  induction n generalizing seen stack with
  | zero =>
    refine ⟨?_, ?_⟩
    · intro ks h u hu
      cases h
      cases hu
    · intro cause h
      cases h
  | succ n ih =>
    cases stack with
    | nil =>
      refine ⟨?_, ?_⟩
      · intro ks h u hu
        cases h
        cases hu
      · intro cause h
        cases h
    | cons s rest =>
      -- Whatever the rest of the search can reach, the stack can reach.
      have onward {seen' : List Token} {stack' : List Shape}
          (wider : ∀ u, r.SpreadFrom stack' u → r.SpreadFrom (s :: rest) u) :
          (∀ ks, r.keysFrom n seen' stack' = .ok ks →
            ∀ u ∈ ks, u.splits = false ∧ r.SpreadFrom (s :: rest) u) ∧
          (∀ cause, r.keysFrom n seen' stack' = .error cause →
            ∃ u, r.SpreadFrom (s :: rest) u ∧ r.target? u = .error cause) := by
        refine ⟨?_, ?_⟩
        · intro ks h u hu
          obtain ⟨key, found⟩ := (ih seen' stack').1 ks h u hu
          exact ⟨key, wider u found⟩
        · intro cause h
          obtain ⟨u, found, fails⟩ := (ih seen' stack').2 cause h
          exact ⟨u, wider u found, fails⟩
      have step := keyStep_keysFrom r n seen s rest
      generalize r.keysFrom (n + 1) seen (s :: rest) = result at step
      cases step with
      | union same =>
        subst same
        exact onward fun u => .spread fun t ht => .member ht
      | again => exact onward fun u => .cons
      | fails found =>
        refine ⟨?_, ?_⟩
        · intro ks h
          cases h
        · intro cause h
          cases h
          exact ⟨s, ⟨s, List.mem_cons_self, .refl⟩, found⟩
      | target _ _ _ found => exact onward fun u => .spread (spreads_of_mem_target found)
      | key key =>
        have later := @onward seen rest fun u => .cons
        refine ⟨?_, ?_⟩
        · intro ks h u hu
          obtain ⟨ks', hks, h⟩ := bind_eq_ok.mp h
          cases h
          rcases List.mem_cons.mp hu with rfl | hu
          · exact ⟨key, u, List.mem_cons_self, .refl⟩
          · exact later.1 ks' hks u hu
        · intro cause h
          rcases bind_eq_error.mp h with h | ⟨_, _, h⟩
          · exact later.2 cause h
          · cases h

/-! ### Nothing is lost -/

/-- The state of a search for the keys of a type. The tokens seen are different ones of the files,
and there are enough steps left: for each token not seen yet, as many as a type of the files has
parts. -/
structure KeySearch (p : Program) (key : Shape) (n : Nat) (seen : List Token)
    (stack : List Shape) : Prop where
  near : ∀ t ∈ stack, Shape.Near p key t
  distinct : seen.Nodup
  known : seen ⊆ (p.filesFrom key).flatMap SourceFile.tokens
  fuel : Shape.sizes stack +
    (((p.filesFrom key).flatMap SourceFile.tokens).length - seen.length) *
      (key.weight + p.weight + 1) ≤ n

section

variable {known : SourceFile → Prop} {p : Program} {key : Shape} {n : Nat} {seen : List Token}
  {rest : List Shape}

theorem KeySearch.tail (g : KeySearch p key (n + 1) seen (s :: rest)) :
    KeySearch p key n seen rest where
  near t ht := g.near t (List.mem_cons_of_mem _ ht)
  distinct := g.distinct
  known := g.known
  fuel := by
    have fuel := g.fuel
    have pos := s.size_pos
    rw [Shape.sizes] at fuel
    omega

variable (lib : Library known) (hp : p.Of known) (hkey : key.Genuine known)

include lib hp hkey

theorem KeySearch.union {members : List Shape}
    (g : KeySearch p key (n + 1) seen (.union members :: rest)) :
    KeySearch p key n seen (members ++ rest) where
  near t ht := by
    rcases List.mem_append.mp ht with ht | ht
    · exact near_of_spreads (r := program p) lib hp hkey (g.near _ List.mem_cons_self) (.member ht)
    · exact g.near t (List.mem_cons_of_mem _ ht)
  distinct := g.distinct
  known := g.known
  fuel := by
    have fuel := g.fuel
    rw [Shape.sizes, Shape.size] at fuel
    rw [Shape.sizes_append]
    omega

theorem KeySearch.target {k : Token} {t? : Option Shape}
    (g : KeySearch p key (n + 1) seen (s :: rest)) (hk : s.token? = some k) (new : k ∉ seen)
    (found : (program p).target? s = .ok t?) :
    KeySearch p key n (k :: seen) (t?.toList ++ rest) := by
  have hs := g.near s List.mem_cons_self
  have near (t : Shape) (ht : t ∈ t?.toList) : Shape.Near p key t :=
    near_of_spreads (r := program p) lib hp hkey hs (spreads_of_mem_target found t ht)
  have distinct : (k :: seen).Nodup := List.nodup_cons.mpr ⟨new, g.distinct⟩
  have mem : k ∈ (p.filesFrom key).flatMap SourceFile.tokens := by
    obtain ⟨file, hf, mem⟩ := Shape.token_mem hs.genuine hk
    exact List.mem_flatMap.mpr ⟨file, hf, mem⟩
  have known : k :: seen ⊆ (p.filesFrom key).flatMap SourceFile.tokens :=
    List.cons_subset.mpr ⟨mem, g.known⟩
  refine ⟨?_, distinct, known, ?_⟩
  · intro t ht
    rcases List.mem_append.mp ht with ht | ht
    · exact near t ht
    · exact g.near t (List.mem_cons_of_mem _ ht)
  · have small : Shape.sizes t?.toList ≤ key.weight + p.weight := by
      cases t? with
      | none => exact Nat.zero_le _
      | some t =>
        have size := (near t (by simp)).size
        simpa [Shape.sizes] using size
    have count : seen.length + 1 ≤ ((p.filesFrom key).flatMap SourceFile.tokens).length :=
      (List.subperm_of_subset distinct known).length_le
    have fuel := g.fuel
    have pos := s.size_pos
    obtain ⟨left, hleft⟩ := Nat.exists_eq_add_of_le count
    rw [Shape.sizes_append, hleft, List.length_cons, Nat.add_sub_cancel_left]
    rw [Shape.sizes, hleft, show seen.length + 1 + left - seen.length = left + 1 by omega,
      Nat.succ_mul] at fuel
    omega

/-- A reference is told by its token. -/
theorem eq_of_token {k : Token} (hs : Shape.Near p key s) (ht : Shape.Near p key t)
    (split : s.splits = true) (ks : s.token? = some k) (kt : t.token? = some k) : t = s := by
  cases Shape.alike_of_token (Shape.library_filesFrom hkey hp lib) hs.genuine ht.genuine ks kt with
  | refl => rfl
  | interface => cases split

/-- What can be reached around the references seen is met: a key is given, and a reference does not
fail. -/
theorem met_of_route {stack ks : List Shape} (g : KeySearch p key n seen stack)
    (h : (program p).keysFrom n seen stack = .ok ks) (hs : s ∈ stack)
    (free : Free Shape.token? seen s)
    (route : Route (program p).Spreads Shape.token? seen s u) :
    (u.splits = false → u ∈ ks) ∧ ∃ t?, (program p).target? u = .ok t? := by
  induction n generalizing seen stack ks s with
  | zero =>
    -- The bound lasts as long as there is something on the stack.
    obtain ⟨first, rest, rfl⟩ := List.exists_cons_of_ne_nil (List.ne_nil_of_mem hs)
    have fuel := g.fuel
    have pos := first.size_pos
    rw [Shape.sizes] at fuel
    omega
  | succ n ih =>
    obtain ⟨x, rest, rfl⟩ := List.exists_cons_of_ne_nil (List.ne_nil_of_mem hs)
    have closed (a b : Shape) (ha : Shape.Near p key a) (step : (program p).Spreads a b) :
        Shape.Near p key b := near_of_spreads (r := program p) lib hp hkey ha step
    have step := keyStep_keysFrom (program p) n seen x rest
    generalize (program p).keysFrom (n + 1) seen (x :: rest) = result at step h
    cases step with
    | @union members same =>
      subst same
      rcases List.mem_cons.mp hs with rfl | hs
      · rcases ReflTransGen.cases_head route with rfl | ⟨v, step, onward⟩
        · exact ⟨nofun, none, rfl⟩
        · cases step.1 with
          | member mem =>
            exact ih (g.union lib hp hkey) h (List.mem_append_left _ mem) step.2 onward
          | target found => cases found
      · exact ih (g.union lib hp hkey) h (List.mem_append_right _ hs) free route
    | again hk seen =>
      rcases List.mem_cons.mp hs with rfl | hs
      · exact absurd seen (free _ hk)
      · exact ih g.tail h hs free route
    | fails => cases h
    | @target k t? split hk new found =>
      have next := g.target lib hp hkey hk new found
      rcases Search.route_or_last_visit closed (g.near s hs) k route with ⟨other, around⟩ |
        ⟨x', near, hk', last⟩
      · rcases List.mem_cons.mp hs with rfl | hs
        · exact absurd hk other
        · exact ih next h (List.mem_append_right _ hs) (Search.free_cons free other) around
      · -- Behind the last visit of the reference, the way begins at what it stands for.
        obtain rfl := eq_of_token lib hp hkey (g.near x List.mem_cons_self) near split hk hk'
        rcases last with rfl | ⟨v, step, freeV, onward⟩
        · exact ⟨fun key => absurd (split.symm.trans key) (by decide), t?, found⟩
        · cases step with
          | member => cases hk
          | target found' =>
            rw [found] at found'
            cases found'
            exact ih next h (by simp) freeV onward
    | key key =>
      obtain ⟨ks', hks, h⟩ := bind_eq_ok.mp h
      cases h
      rcases List.mem_cons.mp hs with rfl | hs
      · rcases ReflTransGen.cases_head route with rfl | ⟨v, step, _⟩
        · exact ⟨fun _ => List.mem_cons_self, none, target?_of_not_splits key⟩
        · exact absurd (key.symm.trans (splits_of_spreads step.1)) (by decide)
      · obtain ⟨given, sound⟩ := ih g.tail hks hs free route
        exact ⟨fun key' => List.mem_cons_of_mem _ (given key'), sound⟩

omit lib hp in
theorem keySearch_start : KeySearch p key ((program p).bound key) [] [key] where
  near t ht := by
    obtain rfl := List.mem_singleton.mp ht
    exact Shape.near_self hkey
  distinct := List.nodup_nil
  known := List.nil_subset _
  fuel := by
    have enough := Shape.bound_filesFrom hkey (p := p)
    have small := (Shape.near_self hkey (p := p)).size
    rw [Nat.succ_mul] at enough
    simp only [Shape.sizes, List.length_nil, Nat.sub_zero]
    omega

/-- The keys of a type are those that it spreads into. -/
theorem mem_keys_iff {ks : List Shape} (h : (program p).keys key = .ok ks) :
    u ∈ ks ↔ ReflTransGen (program p).Spreads key u ∧ u.splits = false := by
  constructor
  · intro hu
    obtain ⟨split, s, hs, path⟩ := (keysFrom_reaches _ _ _ _).1 ks h u hu
    exact ⟨List.mem_singleton.mp hs ▸ path, split⟩
  · rintro ⟨path, split⟩
    exact (met_of_route lib hp hkey (keySearch_start hkey) h List.mem_cons_self
      (Search.free_nil _ _) (Search.route_nil path)).1 split

/-- Where keys are given, no reference fails. -/
theorem exists_target_of_keys {ks : List Shape} (h : (program p).keys key = .ok ks)
    (path : ReflTransGen (program p).Spreads key u) : ∃ t?, (program p).target? u = .ok t? :=
  (met_of_route lib hp hkey (keySearch_start hkey) h List.mem_cons_self
    (Search.free_nil _ _) (Search.route_nil path)).2

omit lib hp hkey in
/-- Where no keys are given, a reference fails. -/
theorem exists_failure_of_keys {cause : Overflow} (h : (program p).keys key = .error cause) :
    ∃ u, ReflTransGen (program p).Spreads key u ∧ (program p).target? u = .error cause := by
  obtain ⟨u, ⟨s, hs, path⟩, fails⟩ := (keysFrom_reaches _ _ _ _).2 cause h
  exact ⟨u, List.mem_singleton.mp hs ▸ path, fails⟩

end

end Resolver

end ParamSchema
