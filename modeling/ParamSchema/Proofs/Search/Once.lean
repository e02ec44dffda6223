import Mathlib.Data.List.Perm.Subperm
import Mathlib.Logic.Relation
import ParamSchema.Search

/-!
The search that enters every node once. `Visits` is the recursive depth-first search as a relation:
it passes a list of marked nodes from call to call. A stack with its marked nodes stands for the
calls that are still to be made, so the search on a stack gives the nodes of the recursive search in
their order (`Visits.once_eq`). In a graph with finitely many nodes the recursive search ends
(`exists_visits`), and it marks what can be reached (`Visits.mem_iff_reachable`).
-/

namespace ParamSchema.Search

variable {α : Type} {next : α → List α} {emits : α → Bool}

/-- The recursive search through a list of nodes: a marked node is passed over; any other node is
marked, emitted if it is one of those to emit, and followed by the search through its successors.
The lists are the marked nodes before, the nodes to visit, the nodes emitted and the marked nodes
afterwards. -/
inductive Visits (next : α → List α) (emits : α → Bool) :
    List α → List α → List α → List α → Prop where
  | nil {marked : List α} : Visits next emits marked [] [] marked
  | again {a : α} {marked rest out marked' : List α} :
      a ∈ marked → Visits next emits marked rest out marked' →
      Visits next emits marked (a :: rest) out marked'
  | first {a : α} {marked rest inner outer marked₁ marked₂ : List α} :
      a ∉ marked → Visits next emits (a :: marked) (next a) inner marked₁ →
      Visits next emits marked₁ rest outer marked₂ →
      Visits next emits marked (a :: rest) ([a].filter emits ++ inner ++ outer) marked₂

namespace Visits

/-- The search has one outcome. -/
theorem unique {marked nodes out out' marked₁ marked₂ : List α}
    (h : Visits next emits marked nodes out marked₁)
    (h' : Visits next emits marked nodes out' marked₂) : out = out' ∧ marked₁ = marked₂ := by
  induction h generalizing out' marked₂ with
  | nil => cases h' with | nil => exact ⟨rfl, rfl⟩
  | again mem _ ih =>
    cases h' with
    | again _ rest => exact ih rest
    | first new _ _ => exact absurd mem new
  | first new _ _ ihInner ihOuter =>
    cases h' with
    | again mem _ => exact absurd mem new
    | first _ inner outer =>
      obtain ⟨rfl, rfl⟩ := ihInner inner
      obtain ⟨rfl, rfl⟩ := ihOuter outer
      exact ⟨rfl, rfl⟩

/-- Marks are only added. -/
theorem marked_subset {marked nodes out marked' : List α}
    (h : Visits next emits marked nodes out marked') : marked ⊆ marked' := by
  induction h with
  | nil => exact List.Subset.refl _
  | again _ _ ih => exact ih
  | first _ _ _ ihInner ihOuter =>
    intro b hb
    exact ihOuter (ihInner (List.mem_cons_of_mem _ hb))

/-- No node is marked twice. -/
theorem nodup {marked nodes out marked' : List α}
    (h : Visits next emits marked nodes out marked') (hm : marked.Nodup) : marked'.Nodup := by
  induction h with
  | nil => exact hm
  | again _ _ ih => exact ih hm
  | first new _ _ ihInner ihOuter => exact ihOuter (ihInner (List.nodup_cons.mpr ⟨new, hm⟩))

/-- All nodes to visit are marked in the end. -/
theorem nodes_subset {marked nodes out marked' : List α}
    (h : Visits next emits marked nodes out marked') : nodes ⊆ marked' := by
  induction h with
  | nil => exact List.nil_subset _
  | again mem rest ih => exact List.cons_subset.mpr ⟨rest.marked_subset mem, ih⟩
  | first _ inner outer _ ihOuter =>
    exact List.cons_subset.mpr
      ⟨outer.marked_subset (inner.marked_subset List.mem_cons_self), ihOuter⟩

/-- The successors of a node that the search marks are marked too. -/
theorem next_subset {marked nodes out marked' : List α}
    (h : Visits next emits marked nodes out marked') {a : α} (ha : a ∈ marked')
    (new : a ∉ marked) : next a ⊆ marked' := by
  induction h with
  | nil => exact absurd ha new
  | again _ _ ih => exact ih ha new
  | @first b marked rest _ _ marked₁ marked₂ _ inner outer ihInner ihOuter =>
    by_cases h₁ : a ∈ marked₁
    · by_cases hb : a = b
      · subst hb
        exact List.Subset.trans inner.nodes_subset outer.marked_subset
      · exact List.Subset.trans (ihInner h₁ (by simp [hb, new])) outer.marked_subset
    · exact ihOuter ha h₁

/-- The search marks only what can be reached from the nodes to visit. -/
theorem exists_path {marked nodes out marked' : List α}
    (h : Visits next emits marked nodes out marked') {a : α} (ha : a ∈ marked')
    (new : a ∉ marked) : ∃ b ∈ nodes, Relation.ReflTransGen (fun c d => d ∈ next c) b a := by
  induction h with
  | nil => exact absurd ha new
  | again _ _ ih =>
    obtain ⟨b, hb, path⟩ := ih ha new
    exact ⟨b, List.mem_cons_of_mem _ hb, path⟩
  | @first b marked rest _ _ marked₁ marked₂ _ inner outer ihInner ihOuter =>
    by_cases h₁ : a ∈ marked₁
    · by_cases hb : a = b
      · exact ⟨b, List.mem_cons_self, hb ▸ .refl⟩
      · obtain ⟨c, hc, path⟩ := ihInner h₁ (by simp [hb, new])
        exact ⟨b, List.mem_cons_self, .head hc path⟩
    · obtain ⟨c, hc, path⟩ := ihOuter ha h₁
      exact ⟨c, List.mem_cons_of_mem _ hc, path⟩

/-- Without marks at the beginning, the marked nodes are those that can be reached. -/
theorem mem_iff_reachable {start : α} {out marked : List α}
    (h : Visits next emits [] [start] out marked) (a : α) :
    a ∈ marked ↔ Relation.ReflTransGen (fun c d => d ∈ next c) start a := by
  constructor
  · intro ha
    obtain ⟨b, hb, path⟩ := h.exists_path ha List.not_mem_nil
    rwa [List.mem_singleton.mp hb] at path
  · intro path
    induction path with
    | refl => exact h.nodes_subset (List.mem_singleton_self _)
    | tail _ step ih => exact h.next_subset ih List.not_mem_nil step

/-- The search does not ask for the successors of nodes that it does not mark. -/
theorem congr {next' : α → List α} {marked nodes out marked' : List α}
    (h : Visits next emits marked nodes out marked') (same : ∀ a ∈ marked', next a = next' a) :
    Visits next' emits marked nodes out marked' := by
  induction h with
  | nil => exact .nil
  | again mem _ ih => exact .again mem (ih same)
  | @first a _ _ _ _ marked₁ _ new inner outer ihInner ihOuter =>
    have within : ∀ b ∈ marked₁, next b = next' b := fun b hb => same b (outer.marked_subset hb)
    have here : next a = next' a := within a (inner.marked_subset List.mem_cons_self)
    exact .first new (here ▸ ihInner within) (ihOuter same)

section

variable {β : Type} {f : α → β} (injective : f.Injective) {next' : β → List β} {emits' : β → Bool}
  (hnext : ∀ a, next' (f a) = (next a).map f) (hemits : ∀ a, emits' (f a) = emits a)

include injective hnext hemits

/-- Every search through a copy of a graph is the copy of a search. -/
theorem exists_of_map (marked nodes : List α) {out marked' : List β}
    (h : Visits next' emits' (marked.map f) (nodes.map f) out marked') :
    ∃ order marks, Visits next emits marked nodes order marks ∧ out = order.map f ∧
      marked' = marks.map f := by
  generalize before : marked.map f = marked₀, hn : nodes.map f = nodes₀ at h
  induction h generalizing marked nodes with
  | nil =>
    cases List.map_eq_nil_iff.mp hn
    exact ⟨[], marked, .nil, rfl, before.symm⟩
  | again mem _ ih =>
    obtain ⟨a, rest, rfl, rfl, behind⟩ := List.map_eq_cons_iff.mp hn
    obtain ⟨order, marks, visits, same⟩ := ih marked rest before behind
    rw [← before, List.mem_map_of_injective injective] at mem
    exact ⟨order, marks, .again mem visits, same⟩
  | first new _ _ ihInner ihOuter =>
    obtain ⟨a, rest, rfl, rfl, behind⟩ := List.map_eq_cons_iff.mp hn
    rw [← before, List.mem_map_of_injective injective] at new
    obtain ⟨inner, marks₁, visitsInner, rfl, same₁⟩ :=
      ihInner (a :: marked) (next a) (by rw [List.map_cons, before]) (hnext a).symm
    obtain ⟨outer, marks₂, visitsOuter, rfl, same₂⟩ := ihOuter marks₁ rest same₁.symm behind
    refine ⟨_, marks₂, .first new visitsInner visitsOuter, ?_, same₂⟩
    cases emitted : emits a <;> simp [hemits, emitted]

end

end Visits

/-! ### Searching with a stack -/

theorem once_nil [BEq α] (n : Nat) (marked : List α) : once next n marked [] = [] := by
  cases n <;> rfl

section

variable [BEq α] [LawfulBEq α]

theorem once_of_mem {marked : List α} {a : α} (ha : a ∈ marked) (n : Nat) (rest : List α) :
    once next n marked (a :: rest) = once next n marked rest := by
  cases n with
  | zero => rfl
  | succ n => simp only [once, List.dropWhile_cons, List.contains_iff_mem.mpr ha, if_true]

theorem once_of_not_mem {marked : List α} {a : α} (ha : a ∉ marked) (n : Nat) (rest : List α) :
    once next (n + 1) marked (a :: rest) =
      a :: once next n (a :: marked) (next a ++ rest) := by
  have new : marked.contains a = false := by simpa using ha
  simp only [once, List.dropWhile_cons, new, Bool.false_eq_true, if_false]

/-- A search on a stack whose upper part the recursive search visits goes on with the lower part and
the marks of the recursive search. The nodes that it enters meanwhile are those that get marks. -/
theorem Visits.once_append {marked nodes out marked' : List α}
    (h : Visits next emits marked nodes out marked') :
    ∃ order : List α, marked' = order.reverse ++ marked ∧ out = order.filter emits ∧
      ∀ n rest, once next (order.length + n) marked (nodes ++ rest) =
        order ++ once next n marked' rest := by
  induction h with
  | nil => exact ⟨[], rfl, rfl, fun n rest => by simp⟩
  | again mem _ ih =>
    obtain ⟨order, marks, emitted, search⟩ := ih
    refine ⟨order, marks, emitted, ?_⟩
    intro n rest
    rw [List.cons_append, once_of_mem mem, search]
  | @first a marked nodes _ _ _ _ new _ _ ihInner ihOuter =>
    obtain ⟨inside, rfl, rfl, searchInside⟩ := ihInner
    obtain ⟨behind, rfl, rfl, searchBehind⟩ := ihOuter
    refine ⟨a :: (inside ++ behind), by simp, ?_, ?_⟩
    · cases ha : emits a <;> simp [ha]
    · intro n rest
      have count : (a :: (inside ++ behind)).length + n =
          inside.length + (behind.length + n) + 1 := by simp; omega
      rw [count, List.cons_append, once_of_not_mem new, searchInside, searchBehind]
      simp

/-- Without marks at the beginning, what is emitted of what can be reached is emitted. -/
theorem Visits.mem_out_iff {start : α} {out marked : List α}
    (h : Visits next emits [] [start] out marked) (a : α) :
    a ∈ out ↔ emits a = true ∧ Relation.ReflTransGen (fun c d => d ∈ next c) start a := by
  rw [← h.mem_iff_reachable]
  obtain ⟨order, rfl, rfl, _⟩ := h.once_append
  simp [and_comm]

/-- The search with a bound that the marked nodes keep is the recursive search. -/
theorem Visits.once_eq {nodes out marked : List α} {n : Nat}
    (h : Visits next emits [] nodes out marked) (hn : marked.length ≤ n) :
    once next n [] nodes = marked.reverse ∧ (once next n [] nodes).filter emits = out := by
  obtain ⟨order, rfl, rfl, search⟩ := h.once_append
  have bound : order.length ≤ n := by simpa using hn
  have whole : once next n [] nodes = order := by
    simpa [once_nil, Nat.add_sub_cancel' bound] using search (n - order.length) []
  simp [whole]

end

/-! ### Finite graphs -/

/-- In a finite graph the recursive search ends, whatever is marked. The number of nodes without a
mark bounds the depth of the recursion. -/
theorem exists_visits {graph : List α} (closed : ∀ a ∈ graph, next a ⊆ graph)
    {marked nodes : List α} (distinct : marked.Nodup) (inside : marked ⊆ graph)
    (hn : nodes ⊆ graph) :
    ∃ out marked', Visits next emits marked nodes out marked' ∧ marked' ⊆ graph := by
  classical
  -- Entering a node leaves fewer without a mark; passing over one leaves a shorter list.
  induction h : graph.length - marked.length using Nat.strongRecOn
    generalizing marked nodes with
  | _ left ih =>
    induction nodes with
    | nil => exact ⟨[], marked, .nil, inside⟩
    | cons a rest ihRest =>
      obtain ⟨ha, hrest⟩ := List.cons_subset.mp hn
      by_cases mem : a ∈ marked
      · obtain ⟨out, marked', visits, sub⟩ := ihRest hrest
        exact ⟨out, marked', .again mem visits, sub⟩
      · have distinct' : (a :: marked).Nodup := List.nodup_cons.mpr ⟨mem, distinct⟩
        have inside' : a :: marked ⊆ graph := List.cons_subset.mpr ⟨ha, inside⟩
        have room : (a :: marked).length ≤ graph.length :=
          (List.subperm_of_subset distinct' inside').length_le
        rw [List.length_cons] at room
        obtain ⟨inner, marked₁, visitsInner, sub₁⟩ :=
          ih (graph.length - (a :: marked).length) (by rw [List.length_cons]; omega)
            distinct' inside' (closed a ha) rfl
        have distinct₁ : marked₁.Nodup := visitsInner.nodup distinct'
        have more : (a :: marked).length ≤ marked₁.length :=
          (List.subperm_of_subset distinct' visitsInner.marked_subset).length_le
        rw [List.length_cons] at more
        obtain ⟨outer, marked₂, visitsOuter, sub₂⟩ :=
          ih (graph.length - marked₁.length) (by omega) distinct₁ sub₁ hrest rfl
        exact ⟨_, marked₂, .first mem visitsInner visitsOuter, sub₂⟩

end ParamSchema.Search
