import Mathlib.Data.List.Nodup
import ParamSchema.Proofs.Search.Along
import ParamSchema.Proofs.Search.Once

/-!
The search for the first hit. `Finds` is the recursive search that enters every node once and stops
at a hit: its marks pass from branch to branch and stay when a branch has failed. It finds the first
hit in the order in which `Visits` meets the nodes (`Visits.finds`). `FindsAlong` takes the marks
back when it leaves a node, so that it tries a node again on every other way. Both find the same
(`Finds.eq_findsAlong`): a branch that has failed has no hit but behind nodes on the way to it, and
those are tried anyway.
-/

namespace ParamSchema.Search

variable {α : Type} {next next' : α → List α} {hit : α → Bool}

/-- The recursive search for a hit through a list of nodes: a marked node is passed over; any other
node is marked and is found if it is a hit, else what its successors lead to is found, else the
search goes on. The arguments are the marked nodes before, the nodes to try, the hit that is found
and the marked nodes afterwards. -/
inductive Finds (next : α → List α) (hit : α → Bool) :
    List α → List α → Option α → List α → Prop where
  | nil {marked : List α} : Finds next hit marked [] none marked
  | again {a : α} {marked rest marked' : List α} {found : Option α} :
      a ∈ marked → Finds next hit marked rest found marked' →
      Finds next hit marked (a :: rest) found marked'
  | here {a : α} {marked rest : List α} :
      a ∉ marked → hit a = true → Finds next hit marked (a :: rest) (some a) (a :: marked)
  | inside {a b : α} {marked rest marked' : List α} :
      a ∉ marked → hit a = false → Finds next hit (a :: marked) (next a) (some b) marked' →
      Finds next hit marked (a :: rest) (some b) marked'
  | behind {a : α} {marked rest marked₁ marked₂ : List α} {found : Option α} :
      a ∉ marked → hit a = false → Finds next hit (a :: marked) (next a) none marked₁ →
      Finds next hit marked₁ rest found marked₂ → Finds next hit marked (a :: rest) found marked₂

/-- The same search with marks for the nodes on the way only. -/
inductive FindsAlong (next : α → List α) (hit : α → Bool) :
    List α → List α → Option α → Prop where
  | nil {way : List α} : FindsAlong next hit way [] none
  | again {a : α} {way rest : List α} {found : Option α} :
      a ∈ way → FindsAlong next hit way rest found → FindsAlong next hit way (a :: rest) found
  | here {a : α} {way rest : List α} :
      a ∉ way → hit a = true → FindsAlong next hit way (a :: rest) (some a)
  | inside {a b : α} {way rest : List α} :
      a ∉ way → hit a = false → FindsAlong next hit (a :: way) (next a) (some b) →
      FindsAlong next hit way (a :: rest) (some b)
  | behind {a : α} {way rest : List α} {found : Option α} :
      a ∉ way → hit a = false → FindsAlong next hit (a :: way) (next a) none →
      FindsAlong next hit way rest found → FindsAlong next hit way (a :: rest) found

namespace Finds

/-- The search has one outcome. -/
theorem unique {marked nodes marked₁ marked₂ : List α} {found found' : Option α}
    (h : Finds next hit marked nodes found marked₁)
    (h' : Finds next hit marked nodes found' marked₂) : found = found' ∧ marked₁ = marked₂ := by
  induction h generalizing found' marked₂ with
  | nil => cases h' with | nil => exact ⟨rfl, rfl⟩
  | again mem _ ih =>
    cases h' with
    | again _ rest => exact ih rest
    | here new _ => exact absurd mem new
    | inside new _ _ => exact absurd mem new
    | behind new _ _ _ => exact absurd mem new
  | here new ha =>
    cases h' with
    | again mem _ => exact absurd mem new
    | here _ _ => exact ⟨rfl, rfl⟩
    | inside _ no _ => cases ha.symm.trans no
    | behind _ no _ _ => cases ha.symm.trans no
  | inside new no _ ih =>
    cases h' with
    | again mem _ => exact absurd mem new
    | here _ ha => cases ha.symm.trans no
    | inside _ _ inner => exact ih inner
    | behind _ _ inner _ => cases (ih inner).1
  | behind new no _ _ ihInner ihOuter =>
    cases h' with
    | again mem _ => exact absurd mem new
    | here _ ha => cases ha.symm.trans no
    | inside _ _ inner => cases (ihInner inner).1
    | behind _ _ inner outer =>
      obtain ⟨_, rfl⟩ := ihInner inner
      exact ihOuter outer

/-- What follows a hit does not count. -/
theorem congr (same : ∀ a, hit a = false → next a = next' a) {marked nodes marked' : List α}
    {found : Option α} (h : Finds next hit marked nodes found marked') :
    Finds next' hit marked nodes found marked' := by
  induction h with
  | nil => exact .nil
  | again mem _ ih => exact .again mem ih
  | here new ha => exact .here new ha
  | inside new no _ ih => exact .inside new no (same _ no ▸ ih)
  | behind new no _ _ ihInner ihOuter => exact .behind new no (same _ no ▸ ihInner) ihOuter

theorem marked_subset {marked nodes marked' : List α} {found : Option α}
    (h : Finds next hit marked nodes found marked') : marked ⊆ marked' := by
  induction h with
  | nil => exact List.Subset.refl _
  | again _ _ ih => exact ih
  | here _ _ => exact List.subset_cons_self _ _
  | inside _ _ _ ih => exact List.Subset.trans (List.subset_cons_self _ _) ih
  | behind _ _ _ _ ihInner ihOuter =>
    exact List.Subset.trans (List.subset_cons_self _ _) (List.Subset.trans ihInner ihOuter)

/-- A search that finds nothing has tried all nodes. -/
theorem nodes_subset {marked nodes marked' : List α} {found : Option α}
    (h : Finds next hit marked nodes found marked') (nothing : found = none) :
    nodes ⊆ marked' := by
  induction h with
  | nil => exact List.nil_subset _
  | again mem rest ih => exact List.cons_subset.mpr ⟨rest.marked_subset mem, ih nothing⟩
  | here _ _ => cases nothing
  | inside _ _ _ _ => cases nothing
  | behind _ _ inner outer _ ihOuter =>
    exact List.cons_subset.mpr
      ⟨outer.marked_subset (inner.marked_subset List.mem_cons_self), ihOuter nothing⟩

end Finds

/-- A search that emits all nodes emits them in the order in which it marks them. -/
theorem Visits.marked_eq {marked nodes out marked' : List α}
    (h : Visits next (fun _ => true) marked nodes out marked') :
    marked' = out.reverse ++ marked := by
  induction h with
  | nil => rfl
  | again _ _ ih => exact ih
  | first _ _ _ ihInner ihOuter =>
    rw [ihOuter, ihInner]
    simp

/-- The search finds the first hit among the nodes that the search through all nodes enters, in its
order. -/
theorem Visits.finds {marked nodes out marked' : List α}
    (h : Visits next (fun _ => true) marked nodes out marked') :
    (out.find? hit = none → Finds next hit marked nodes none marked') ∧
      ∀ b, out.find? hit = some b → ∃ marked'', Finds next hit marked nodes (some b) marked'' := by
  induction h with
  | nil =>
    refine ⟨fun _ => .nil, ?_⟩
    intro b hb
    cases hb
  | again mem _ ih =>
    refine ⟨fun nothing => .again mem (ih.1 nothing), ?_⟩
    intro b hb
    obtain ⟨marked'', found⟩ := ih.2 b hb
    exact ⟨marked'', .again mem found⟩
  | @first a marked rest inner outer marked₁ marked₂ new _ _ ihInner ihOuter =>
    have order : ([a].filter fun _ => true) ++ inner ++ outer = a :: (inner ++ outer) := by simp
    rw [order]
    by_cases ha : hit a = true
    · rw [List.find?_cons_of_pos ha]
      refine ⟨nofun, ?_⟩
      intro b hb
      cases hb
      exact ⟨_, .here new ha⟩
    · have no : hit a = false := Bool.eq_false_iff.mpr ha
      rw [List.find?_cons_of_neg ha, List.find?_append]
      cases inside : inner.find? hit with
      | some c =>
        refine ⟨nofun, ?_⟩
        intro b hb
        cases hb
        obtain ⟨marked'', found⟩ := ihInner.2 c inside
        exact ⟨marked'', .inside new no found⟩
      | none =>
        have failed := ihInner.1 inside
        rw [Option.none_or]
        refine ⟨fun nothing => .behind new no failed (ihOuter.1 nothing), ?_⟩
        intro b hb
        obtain ⟨marked'', found⟩ := ihOuter.2 b hb
        exact ⟨marked'', .behind new no failed found⟩

/-! ### Marks that are taken back -/

/-- A node without a hit but behind the nodes on a way. -/
def Barren (next : α → List α) (hit : α → Bool) (way : List α) (a : α) : Prop :=
  ∀ b, Route (fun c d => d ∈ next c) some way a b → hit b = false

/-- Marks that stand for nodes on a way and for barren nodes. -/
def Spent (next : α → List α) (hit : α → Bool) (way marked : List α) : Prop :=
  ∀ a ∈ marked, a ∉ way → Barren next hit way a

section

variable {way marked : List α} {a b : α}

theorem free_some : Free some way a ↔ a ∉ way := by
  simp [Free]

/-- A longer way leaves fewer routes. -/
theorem Barren.cons (h : Barren next hit way b) : Barren next hit (a :: way) b := by
  intro c route
  refine h c (route.lift id ?_)
  rintro d e ⟨step, free⟩
  exact ⟨step, free_some.mpr fun mem => free_some.mp free (List.mem_cons_of_mem _ mem)⟩

/-- What a barren node leads to is barren. -/
theorem Barren.step (h : Barren next hit way a) (hb : b ∈ next a) (outside : b ∉ way) :
    Barren next hit way b := by
  intro c route
  exact h c (.head ⟨hb, free_some.mpr outside⟩ route)

theorem Spent.cons (h : Spent next hit way marked) : Spent next hit (a :: way) (a :: marked) := by
  intro c hc outside
  obtain ⟨other, outside⟩ := not_or.mp (mt List.mem_cons.mpr outside)
  exact (h c ((List.mem_cons.mp hc).resolve_left other) outside).cons

/-- A node that is left without a hit is barren, as behind its last visit a route does not meet it
again. So are the nodes that were barren but for it. -/
theorem Spent.of_cons (no : hit a = false) (tried : next a ⊆ marked)
    (h : Spent next hit (a :: way) marked) : Spent next hit way marked := by
  intro c hc outside b route
  rcases route_or_last_visit (P := fun _ => True) (fun _ _ _ _ => trivial) trivial a route with
    ⟨other, avoids⟩ | ⟨_, _, same, rfl | ⟨d, step, free, rest⟩⟩
  · have other' : c ≠ a := fun same => other (congrArg some same)
    exact h c hc (by simp [other', outside]) b avoids
  · cases same
    exact no
  · cases same
    exact h d (tried step) (free_some.mp free) b rest

end

/-- A search that finds something has a node to try that is not barren. -/
theorem FindsAlong.exists_not_barren {way nodes : List α} {found : Option α}
    (h : FindsAlong next hit way nodes found) (something : found ≠ none) :
    ∃ a ∈ nodes, a ∉ way ∧ ¬ Barren next hit way a := by
  induction h with
  | nil => exact absurd rfl something
  | again _ _ ih =>
    obtain ⟨c, hc, fertile⟩ := ih something
    exact ⟨c, List.mem_cons_of_mem _ hc, fertile⟩
  | @here a way rest new ha =>
    refine ⟨a, List.mem_cons_self, new, ?_⟩
    intro barren
    cases ha.symm.trans (barren a .refl)
  | @inside a b way rest new no _ ih =>
    refine ⟨a, List.mem_cons_self, new, ?_⟩
    intro barren
    obtain ⟨c, hc, outside, fertile⟩ := ih something
    exact fertile (barren.step hc (mt (List.mem_cons_of_mem _) outside)).cons
  | behind _ _ _ _ _ ih =>
    obtain ⟨c, hc, fertile⟩ := ih something
    exact ⟨c, List.mem_cons_of_mem _ hc, fertile⟩

/-- With spent marks both searches find the same, and the marks they leave are spent. -/
theorem Finds.eq_findsAlong {way marked nodes marked' : List α} {found found' : Option α}
    (h : Finds next hit marked nodes found marked') (sub : way ⊆ marked)
    (spent : Spent next hit way marked) (h' : FindsAlong next hit way nodes found') :
    found = found' ∧ (found = none → Spent next hit way marked') := by
  induction h generalizing way found' with
  | nil =>
    cases h' with
    | nil => exact ⟨rfl, fun _ => spent⟩
  | @again a marked rest marked' found mem _ ih =>
    -- The other search tries a marked node again unless it is on the way, and fails again.
    cases h' with
    | again _ rest' => exact ih sub spent rest'
    | here outside ha => cases ha.symm.trans (spent a mem outside a .refl)
    | inside outside no inner =>
      obtain ⟨c, hc, outside', fertile⟩ := inner.exists_not_barren (Option.some_ne_none _)
      have barren := (spent a mem outside).step hc (mt (List.mem_cons_of_mem _) outside')
      exact absurd barren.cons fertile
    | behind _ _ _ rest' => exact ih sub spent rest'
  | @here a marked rest new ha =>
    cases h' with
    | again mem _ => exact absurd (sub mem) new
    | here _ _ => exact ⟨rfl, nofun⟩
    | inside _ no _ => cases ha.symm.trans no
    | behind _ no _ _ => cases ha.symm.trans no
  | @inside a b marked rest marked' new no inner ih =>
    have sub' : a :: way ⊆ a :: marked := List.cons_subset_cons a sub
    cases h' with
    | again mem _ => exact absurd (sub mem) new
    | here _ ha => cases ha.symm.trans no
    | inside _ _ inner' => exact ⟨(ih sub' spent.cons inner').1, nofun⟩
    | behind _ _ inner' _ => cases (ih sub' spent.cons inner').1
  | @behind a marked rest marked₁ marked₂ found new no inner outer ihInner ihOuter =>
    have sub' : a :: way ⊆ a :: marked := List.cons_subset_cons a sub
    cases h' with
    | again mem _ => exact absurd (sub mem) new
    | here _ ha => cases ha.symm.trans no
    | inside _ _ inner' => cases (ihInner sub' spent.cons inner').1
    | behind _ _ inner' outer' =>
      have spent₁ :=
        Spent.of_cons no (inner.nodes_subset rfl) ((ihInner sub' spent.cons inner').2 rfl)
      have sub₁ : way ⊆ marked₁ := by
        intro c hc
        exact inner.marked_subset (List.mem_cons_of_mem _ (sub hc))
      exact ihOuter sub₁ spent₁ outer'

/-- In a finite graph the search along ways ends. -/
theorem exists_findsAlong {graph : List α} (closed : ∀ a ∈ graph, next a ⊆ graph)
    {way nodes : List α} (distinct : way.Nodup) (inside : way ⊆ graph) (hn : nodes ⊆ graph) :
    ∃ found, FindsAlong next hit way nodes found := by
  classical
  induction h : graph.length - way.length using Nat.strongRecOn generalizing way nodes with
  | _ left ih =>
    induction nodes with
    | nil => exact ⟨none, .nil⟩
    | cons a rest ihRest =>
      obtain ⟨ha, hrest⟩ := List.cons_subset.mp hn
      obtain ⟨later, hlater⟩ := ihRest hrest
      by_cases mem : a ∈ way
      · exact ⟨later, .again mem hlater⟩
      · by_cases hits : hit a = true
        · exact ⟨some a, .here mem hits⟩
        · have no : hit a = false := Bool.eq_false_iff.mpr hits
          have distinct' : (a :: way).Nodup := List.nodup_cons.mpr ⟨mem, distinct⟩
          have inside' : a :: way ⊆ graph := List.cons_subset.mpr ⟨ha, inside⟩
          have room : (a :: way).length ≤ graph.length :=
            (List.subperm_of_subset distinct' inside').length_le
          rw [List.length_cons] at room
          obtain ⟨found, hfound⟩ :=
            ih (graph.length - (a :: way).length) (by rw [List.length_cons]; omega)
              distinct' inside' (closed a ha) rfl
          cases found with
          | some b => exact ⟨some b, .inside mem no hfound⟩
          | none => exact ⟨later, .behind mem no hfound hlater⟩

/-- In a finite graph, both searches end with the first hit among the nodes that can be reached, in
the order of the search through all nodes. -/
theorem exists_order {graph : List α} (closed : ∀ a ∈ graph, next a ⊆ graph) {start : α}
    (hs : start ∈ graph) (hit : α → Bool) :
    ∃ order : List α, (∃ marked, Visits next (fun _ => true) [] [start] order marked) ∧
      order.Nodup ∧ (∀ a, a ∈ order ↔ Relation.ReflTransGen (fun c d => d ∈ next c) start a) ∧
      (∀ found, (∃ marked, Finds next hit [] [start] found marked) ↔ found = order.find? hit) ∧
      ∀ found, FindsAlong next hit [] [start] found ↔ found = order.find? hit := by
  have first : [start] ⊆ graph := List.cons_subset.mpr ⟨hs, List.nil_subset _⟩
  obtain ⟨order, marked, visits, _⟩ :
      ∃ order marked, Visits next (fun _ => true) [] [start] order marked ∧ marked ⊆ graph :=
    exists_visits closed List.nodup_nil (List.nil_subset _) first
  have marks : marked = order.reverse := by simpa using visits.marked_eq
  have finds : ∃ marked', Finds next hit [] [start] (order.find? hit) marked' := by
    cases result : order.find? hit with
    | none => exact ⟨marked, visits.finds.1 result⟩
    | some b => exact visits.finds.2 b result
  obtain ⟨marked', finds⟩ := finds
  have spent : Spent next hit [] [] := by
    intro a ha
    cases ha
  refine ⟨order, ⟨marked, visits⟩, ?_, ?_, ?_, ?_⟩
  · rw [← List.nodup_reverse, ← marks]
    exact visits.nodup List.nodup_nil
  · intro a
    rw [← visits.mem_iff_reachable, marks, List.mem_reverse]
  · intro found
    constructor
    · rintro ⟨_, h⟩
      exact (h.unique finds).1
    · rintro rfl
      exact ⟨marked', finds⟩
  · obtain ⟨along, findsAlong⟩ : ∃ along, FindsAlong next hit [] [start] along :=
      exists_findsAlong closed List.nodup_nil (List.nil_subset _) first
    intro found
    constructor
    · intro h
      exact (finds.eq_findsAlong (List.nil_subset _) spent h).1.symm
    · rintro rfl
      rw [(finds.eq_findsAlong (List.nil_subset _) spent findsAlong).1]
      exact findsAlong

end ParamSchema.Search
