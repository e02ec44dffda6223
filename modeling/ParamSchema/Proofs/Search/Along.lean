import Mathlib.Data.List.Perm.Subperm
import Mathlib.Logic.Relation
import ParamSchema.Search

/-!
The search along ways. It refuses to enter a node below a node with the same key, so what it meets
depends on the way. Where nodes with the same key lead to the same, no result is lost: behind the
last node with a key, a way does not meet the key again (`route_or_last_visit`). So the search gives
exactly the results of the nodes that can be reached (`Keyed.mem_along_iff`), and a larger bound
than the ways need changes nothing (`Keyed.along_of_le`).
-/

namespace ParamSchema.Search

variable {α β κ : Type}

/-! ### Routes around keys -/

section

variable {leads : α → α → Prop} {key : α → Option κ} {way : List κ} {a b c : α} {k : κ}

/-- The key of a node, if it has one, is none of the given ones. -/
def Free (key : α → Option κ) (way : List κ) (a : α) : Prop := ∀ k, key a = some k → k ∉ way

/-- One node can be reached from another without entering a node with one of the keys. -/
def Route (leads : α → α → Prop) (key : α → Option κ) (way : List κ) : α → α → Prop :=
  Relation.ReflTransGen fun a b => leads a b ∧ Free key way b

theorem free_nil (key : α → Option κ) (a : α) : Free key [] a := fun _ _ => List.not_mem_nil

theorem free_cons (h : Free key way a) (hk : key a ≠ some k) : Free key (k :: way) a := by
  intro k' hk' mem
  rcases List.mem_cons.mp mem with rfl | mem
  · exact hk hk'
  · exact h k' hk' mem

theorem route_nil (h : Relation.ReflTransGen leads a b) : Route leads key [] a b :=
  h.lift id fun _ b step => ⟨step, free_nil key b⟩

/-- A route does not meet a key at all, or it does not meet it again behind the last node with the
key. -/
theorem route_or_last_visit {P : α → Prop} (closed : ∀ a b, P a → leads a b → P b) (ha : P a)
    (k : κ) (route : Route leads key way a b) :
    (key a ≠ some k ∧ Route leads key (k :: way) a b) ∨
    ∃ a', P a' ∧ key a' = some k ∧
      (a' = b ∨ ∃ c, leads a' c ∧ Free key (k :: way) c ∧ Route leads key (k :: way) c b) := by
  have reached : P b ∧ ((key a ≠ some k ∧ Route leads key (k :: way) a b) ∨
      ∃ a', P a' ∧ key a' = some k ∧
        (a' = b ∨ ∃ c, leads a' c ∧ Free key (k :: way) c ∧ Route leads key (k :: way) c b)) := by
    induction route with
    | refl =>
      by_cases start : key a = some k
      · exact ⟨ha, .inr ⟨a, ha, start, .inl rfl⟩⟩
      · exact ⟨ha, .inl ⟨start, .refl⟩⟩
    | @tail b c _ step ih =>
      obtain ⟨hb, visits⟩ := ih
      have hc := closed b c hb step.1
      refine ⟨hc, ?_⟩
      by_cases again : key c = some k
      · exact .inr ⟨c, hc, again, .inl rfl⟩
      · have free := free_cons step.2 again
        rcases visits with ⟨start, around⟩ | ⟨a', ha', hk', last⟩
        · exact .inl ⟨start, around.tail ⟨step.1, free⟩⟩
        · refine .inr ⟨a', ha', hk', .inr ?_⟩
          rcases last with rfl | ⟨d, first, freeD, rest⟩
          · exact ⟨c, step.1, free, .refl⟩
          · exact ⟨d, first, freeD, rest.tail ⟨step.1, free⟩⟩
  exact reached.2

end

/-! ### Graphs with keys -/

/-- A step of the search leads from one node to another. -/
def Leads (next : α → List (α ⊕ β)) (a b : α) : Prop := .inl b ∈ next a

/-- A graph on the nodes that satisfy `P`. Nodes with the same key lead to the same, there are
finitely many keys, and between nodes with keys all ways go down. -/
structure Keyed (key : α → Option κ) (next : α → List (α ⊕ β)) (P : α → Prop) (keys : List κ)
    (rank : α → Nat) (height : Nat) : Prop where
  closed : ∀ a b, P a → Leads next a b → P b
  same : ∀ {a b k}, P a → P b → key a = some k → key b = some k → next a = next b
  known : ∀ {a k}, P a → key a = some k → k ∈ keys
  descends : ∀ {a b}, P a → key a = none → Leads next a b → rank b < rank a
  bounded : ∀ {a}, P a → rank a ≤ height

theorem along_of_blocked [BEq κ] {key : α → Option κ} {next : α → List (α ⊕ β)} {way : List κ}
    {a : α} (blocked : (key a).any way.contains = true) (n : Nat) :
    along key next n way a = [] := by
  cases n with
  | zero => rfl
  | succ n => rw [along, if_pos blocked]

theorem mem_along_of_step [BEq κ] {key : α → Option κ} {next : α → List (α ⊕ β)} {way : List κ}
    {a : α} {x : β} (n : Nat) (enters : (key a).any way.contains = false) (step : .inr x ∈ next a) :
    x ∈ along key next (n + 1) way a := by
  rw [along, enters]
  exact List.mem_flatMap.mpr ⟨.inr x, step, List.mem_singleton_self x⟩

/-- The results of a node come before those of the nodes it leads to, if its steps are in this
order. -/
theorem along_of_steps [BEq κ] {key : α → Option κ} {next : α → List (α ⊕ β)} {way : List κ}
    {a : α} {results : List β} {nodes : List α} (enters : (key a).any way.contains = false)
    (steps : next a = results.map .inr ++ nodes.map .inl) (n : Nat) :
    along key next (n + 1) way a =
      results ++ nodes.flatMap (along key next n ((key a).toList ++ way)) := by
  rw [along, enters, steps]
  simp [List.flatMap_map]

/-- The search asks only for the steps of nodes that can be reached, and on the way only for their
keys. -/
theorem along_congr [BEq κ] {key : α → Option κ} {next next' : α → List (α ⊕ β)} (n : Nat)
    {way way' : List κ} {a : α}
    (steps : ∀ b, Relation.ReflTransGen (Leads next) a b → next b = next' b)
    (ways : ∀ b, Relation.ReflTransGen (Leads next) a b → ∀ k, key b = some k →
      way.contains k = way'.contains k) :
    along key next n way a = along key next' n way' a := by
  induction n generalizing way way' a with
  | zero => rfl
  | succ n ih =>
    have enters : (key a).any way.contains = (key a).any way'.contains := by
      cases hkey : key a with
      | none => rfl
      | some k => exact ways a .refl k hkey
    rw [along, along, enters, ← steps a .refl]
    congr 1
    apply List.flatMap_congr
    rintro (b | x) hstep
    · apply ih
      · intro c path
        exact steps c (path.head hstep)
      · intro c path k hk
        rw [List.contains_append, List.contains_append, ways c (path.head hstep) k hk]
    · rfl

namespace Keyed

variable [BEq κ] [LawfulBEq κ] {key : α → Option κ} {next : α → List (α ⊕ β)} {P : α → Prop}
  {keys : List κ} {rank : α → Nat} {height : Nat} {a b : α} {x : β}

omit [LawfulBEq κ] in
/-- Only results of nodes that can be reached are met. -/
theorem reachable_of_mem_along {n : Nat} {way : List κ} (h : x ∈ along key next n way a) :
    ∃ b, Relation.ReflTransGen (Leads next) a b ∧ .inr x ∈ next b := by
  induction n generalizing way a with
  | zero => cases h
  | succ n ih =>
    rw [along] at h
    split at h
    · cases h
    · obtain ⟨step, hstep, hx⟩ := List.mem_flatMap.mp h
      cases step with
      | inl c =>
        obtain ⟨b, path, result⟩ := ih hx
        exact ⟨b, path.head hstep, result⟩
      | inr y =>
        rw [List.mem_singleton.mp hx]
        exact ⟨a, .refl, hstep⟩

/-- Keys on the way are used up, so a new one leaves room for one descent less. -/
theorem room {T W D n rankA rankC : Nat} (new : W + 1 ≤ T) (h : (T - W) * (D + 1) + rankA < n + 1)
    (hc : rankC ≤ D) : (T - (W + 1)) * (D + 1) + rankC < n := by
  obtain ⟨X, hX⟩ := Nat.exists_eq_add_of_le new
  have left : T - W = X + 1 := by omega
  have right : T - (W + 1) = X := by omega
  rw [left, Nat.succ_mul] at h
  rw [right]
  omega

/-- A result is met when its node can be reached around the keys on the way. -/
theorem mem_along_of_route (g : Keyed key next P keys rank height) {n : Nat} {way : List κ}
    (ha : P a) (distinct : way.Nodup) (known : way ⊆ keys) (free : Free key way a)
    (fuel : (keys.length - way.length) * (height + 1) + rank a < n)
    (route : Route (Leads next) key way a b) (result : .inr x ∈ next b) :
    x ∈ along key next n way a := by
  induction n generalizing way a with
  | zero => exact absurd fuel (Nat.not_lt_zero _)
  | succ n ih =>
    have enters : ¬ (key a).any way.contains = true := by
      intro blocked
      obtain ⟨k, hk, mem⟩ := Option.any_eq_true .. |>.mp blocked
      exact free k hk (List.contains_iff_mem.mp mem)
    rw [along, if_neg enters, List.mem_flatMap]
    cases hkey : key a with
    | none =>
      rcases Relation.ReflTransGen.cases_head route with rfl | ⟨c, step, rest⟩
      · exact ⟨.inr x, result, List.mem_singleton_self x⟩
      · have lower := g.descends ha hkey step.1
        have fuel' : (keys.length - way.length) * (height + 1) + rank c < n := by omega
        exact ⟨.inl c, step.1, ih (g.closed a c ha step.1) distinct known step.2 fuel' rest⟩
    | some k =>
      -- The route may meet this key again, where the search would stop. It goes on instead as the
      -- route does behind the last node with the key, which leads to the same nodes as this one.
      have new : k ∉ way := free k hkey
      have distinct' : (k :: way).Nodup := List.nodup_cons.mpr ⟨new, distinct⟩
      have known' : k :: way ⊆ keys := List.cons_subset.mpr ⟨g.known ha hkey, known⟩
      obtain ⟨a', ha', hkey', last⟩ :=
        (route_or_last_visit g.closed ha k route).resolve_left fun around => around.1 hkey
      have same := g.same ha' ha hkey' hkey
      rcases last with rfl | ⟨c, step, freeC, rest⟩
      · exact ⟨.inr x, same ▸ result, List.mem_singleton_self x⟩
      · have hc := g.closed a' c ha' step
        have count : way.length + 1 ≤ keys.length :=
          (List.subperm_of_subset distinct' known').length_le
        have step' : Sum.inl c ∈ next a := same ▸ step
        exact ⟨.inl c, step', ih hc distinct' known' freeC (room count fuel (g.bounded hc)) rest⟩

omit [BEq κ] [LawfulBEq κ] in
theorem room_at_start (g : Keyed key next P keys rank height) {n : Nat} (ha : P a)
    (fuel : (keys.length + 1) * (height + 1) ≤ n) :
    (keys.length - ([] : List κ).length) * (height + 1) + rank a < n := by
  have low := g.bounded ha
  rw [Nat.succ_mul] at fuel
  simp only [List.length_nil, Nat.sub_zero]
  omega

/-- The search meets exactly the results of the nodes that can be reached. -/
theorem mem_along_iff (g : Keyed key next P keys rank height) {n : Nat} (ha : P a)
    (fuel : (keys.length + 1) * (height + 1) ≤ n) :
    x ∈ along key next n [] a ↔
      ∃ b, Relation.ReflTransGen (Leads next) a b ∧ .inr x ∈ next b := by
  constructor
  · exact reachable_of_mem_along
  · rintro ⟨b, path, result⟩
    exact g.mem_along_of_route ha List.nodup_nil (List.nil_subset _) (free_nil key a)
      (g.room_at_start ha fuel) (route_nil path) result

/-- A step of a way leaves room for what comes behind it. -/
theorem room_behind (g : Keyed key next P keys rank height) {n : Nat} {way : List κ} (ha : P a)
    (distinct : way.Nodup) (known : way ⊆ keys) (enters : (key a).any way.contains = false)
    (fuel : (keys.length - way.length) * (height + 1) + rank a < n + 1) (step : Leads next a b) :
    ((key a).toList ++ way).Nodup ∧ (key a).toList ++ way ⊆ keys ∧
      (keys.length - ((key a).toList ++ way).length) * (height + 1) + rank b < n := by
  cases hkey : key a with
  | none =>
    have lower := g.descends ha hkey step
    have fuel' : (keys.length - way.length) * (height + 1) + rank b < n := by omega
    exact ⟨distinct, known, fuel'⟩
  | some k =>
    have new : k ∉ way := by
      intro mem
      rw [hkey, Option.any_some, List.contains_iff_mem.mpr mem] at enters
      cases enters
    have distinct' : (k :: way).Nodup := List.nodup_cons.mpr ⟨new, distinct⟩
    have known' : k :: way ⊆ keys := List.cons_subset.mpr ⟨g.known ha hkey, known⟩
    have count : way.length + 1 ≤ keys.length :=
      (List.subperm_of_subset distinct' known').length_le
    exact ⟨distinct', known', room count fuel (g.bounded (g.closed a b ha step))⟩

/-- A bound that is larger than the ways need gives nothing more. -/
theorem along_succ (g : Keyed key next P keys rank height) {n : Nat} {way : List κ} (ha : P a)
    (distinct : way.Nodup) (known : way ⊆ keys)
    (fuel : (keys.length - way.length) * (height + 1) + rank a < n) :
    along key next (n + 1) way a = along key next n way a := by
  induction n generalizing way a with
  | zero => exact absurd fuel (Nat.not_lt_zero _)
  | succ n ih =>
    cases enters : (key a).any way.contains with
    | true => rw [along_of_blocked enters, along_of_blocked enters]
    | false =>
      rw [along, along, enters]
      apply List.flatMap_congr
      rintro (c | x) hstep
      · obtain ⟨distinct', known', fuel'⟩ := g.room_behind ha distinct known enters fuel hstep
        exact ih (g.closed a c ha hstep) distinct' known' fuel'
      · rfl

theorem along_of_le (g : Keyed key next P keys rank height) {n m : Nat} {way : List κ} (ha : P a)
    (distinct : way.Nodup) (known : way ⊆ keys)
    (fuel : (keys.length - way.length) * (height + 1) + rank a < n) (le : n ≤ m) :
    along key next m way a = along key next n way a := by
  obtain ⟨more, rfl⟩ := Nat.exists_eq_add_of_le le
  induction more with
  | zero => rfl
  | succ more ih =>
    have enough := Nat.lt_of_lt_of_le fuel (Nat.le_add_right n more)
    rw [← Nat.add_assoc, g.along_succ ha distinct known enough, ih (Nat.le_add_right n more)]

end Keyed

end ParamSchema.Search
