import Mathlib.Data.List.ProdSigma
import ParamSchema.Program.Lookup
import ParamSchema.Proofs.Search.First
import ParamSchema.Proofs.Table

/-!
The look-up of exported names. `Forwards` tells where an exported name is looked for next, and `Hit`
what a file itself has for it. `Program.exported` gives the first hit of the recursive search along
`Forwards`, in any graph of imports and exports (`Program.exported_is_first_hit`). Its bound is
large enough because only files and names that the imports and exports of the program mention are
met (`Program.mem_exportedElsewhere`).
-/

namespace ParamSchema

/-- The name that an import takes from another file. -/
def Imported.name? : Imported → Option Text
  | .named name => some name
  | _ => none

namespace Symbols

/-- The names of other files, and of this one, that imports and exports mention. -/
def names (s : Symbols) : List Text :=
  s.imports.values.filterMap (·.what.name?) ++ s.exports.values.map (·.name)

theorem length_targets_le (s : Symbols) : s.targets.length ≤ s.size := by
  have some := List.length_filterMap_le (·.target) s.exports.values
  simp only [targets, size, Table.values, List.length_append, List.length_map] at some ⊢
  omega

theorem length_names_le (s : Symbols) : s.names.length ≤ s.size := by
  have some := List.length_filterMap_le (·.what.name?) s.imports.values
  simp only [names, size, Table.values, List.length_append, List.length_map] at some ⊢
  omega

end Symbols

/-- The name that a module itself has for an exported name: the local name of an export without a
source, or the name itself where it is not renamed. -/
inductive Module.OwnName (m : Module) : Text → Text → Prop where
  | renamed {name own : Text} :
      m.symbols.exports.get? name = some ⟨none, own⟩ → OwnName m name own
  | plain {name : Text} : m.symbols.exports.get? name = none → OwnName m name name

namespace Program

variable (p : Program) (meaning : Meaning)

/-- The declarations at the top of a file that give an exported name a meaning. -/
def Hit (e : ExportedName) (found : List Site) : Prop :=
  ∃ m own, p.module? e.1 = some m ∧ m.OwnName e.2 own ∧
    found = m.file.topDeclarations meaning own ∧ found ≠ []

/-- Where an exported name is looked for next. -/
inductive Forwards : ExportedName → List ExportedName → Prop where
  /-- A name that is exported on behalf of another file is looked for in that file only. -/
  | behalf {f t : Path} {n name : Text} {m : Module} :
      p.module? f = some m → m.symbols.exports.get? n = some ⟨some t, name⟩ →
      Forwards (f, n) [(t, name)]
  /-- A name that the file declares is not looked for elsewhere. -/
  | hit {f : Path} {n : Text} {found : List Site} : p.Hit meaning (f, n) found → Forwards (f, n) []
  /-- A name that is imported under its own name or another is looked for where it comes from. -/
  | imported {f t : Path} {n own name : Text} {m : Module} :
      p.module? f = some m → m.OwnName n own → m.file.topDeclarations meaning own = [] →
      m.symbols.imports.get? own = some ⟨t, .named name⟩ → Forwards (f, n) [(t, name)]
  /-- Any other name is looked for in the files of which everything is exported, in their order. -/
  | stars {f : Path} {n own : Text} {m : Module} :
      p.module? f = some m → m.OwnName n own → m.file.topDeclarations meaning own = [] →
      (∀ t name, m.symbols.imports.get? own ≠ some ⟨t, .named name⟩) →
      Forwards (f, n) (m.symbols.stars.map (·, own))
  /-- There is nothing in a file that is not part of the program. -/
  | absent {f : Path} {n : Text} : p.module? f = none → Forwards (f, n) []

/-- Whether a file itself declares an exported name. -/
def declares (e : ExportedName) : Bool := !(p.exportedHere meaning e).isEmpty

/-- The exported names that an exported name leads to. -/
def forwards (e : ExportedName) : List ExportedName :=
  if p.declares meaning e then [] else p.exportedElsewhere e

variable {p} {meaning} {e e' : ExportedName}

/-! ### What one step can do -/

section

variable {m : Module} {own name : Text} {t : Path}

theorem ownName_or_behalf (m : Module) (n : Text) :
    (∃ own, m.OwnName n own) ∨ ∃ t name, m.symbols.exports.get? n = some ⟨some t, name⟩ := by
  cases found : m.symbols.exports.get? n with
  | none => exact .inl ⟨n, .plain found⟩
  | some entry =>
    obtain ⟨target, own⟩ := entry
    cases target with
    | none => exact .inl ⟨own, .renamed found⟩
    | some t => exact .inr ⟨t, own, rfl⟩

theorem exportedHere_of_ownName (hm : p.module? e.1 = some m) (ownName : m.OwnName e.2 own) :
    p.exportedHere meaning e = m.file.topDeclarations meaning own := by
  unfold exportedHere localName?
  cases ownName with
  | renamed found => simp only [hm, found, Option.map_some, Option.getD_some]
  | plain found => simp only [hm, found, Option.map_some, Option.getD_some]

theorem exportedHere_of_behalf (hm : p.module? e.1 = some m)
    (found : m.symbols.exports.get? e.2 = some ⟨some t, name⟩) :
    p.exportedHere meaning e = [] := by
  unfold exportedHere localName?
  simp only [hm, found, Option.map_none, Option.getD_none]

theorem exportedElsewhere_of_behalf (hm : p.module? e.1 = some m)
    (found : m.symbols.exports.get? e.2 = some ⟨some t, name⟩) :
    p.exportedElsewhere e = [(t, name)] := by
  unfold exportedElsewhere
  simp only [hm, found]

theorem exportedElsewhere_of_imported (hm : p.module? e.1 = some m)
    (ownName : m.OwnName e.2 own) (found : m.symbols.imports.get? own = some ⟨t, .named name⟩) :
    p.exportedElsewhere e = [(t, name)] := by
  unfold exportedElsewhere
  cases ownName with
  | renamed entry => simp only [hm, entry, found, Option.map_some, Option.getD_some]
  | plain entry => simp only [hm, entry, found, Option.map_none, Option.getD_none]

theorem exportedElsewhere_of_stars (hm : p.module? e.1 = some m) (ownName : m.OwnName e.2 own)
    (none : ∀ t name, m.symbols.imports.get? own ≠ some ⟨t, .named name⟩) :
    p.exportedElsewhere e = m.symbols.stars.map (·, own) := by
  unfold exportedElsewhere
  cases ownName with
  | renamed entry => simp only [hm, entry, Option.map_some, Option.getD_some]
  | plain entry => simp only [hm, entry, Option.map_none, Option.getD_none]

end

theorem hit_iff {found : List Site} :
    p.Hit meaning e found ↔ found = p.exportedHere meaning e ∧ found ≠ [] := by
  constructor
  · rintro ⟨m, own, hm, ownName, rfl, some⟩
    exact ⟨(exportedHere_of_ownName hm ownName).symm, some⟩
  · rintro ⟨rfl, some⟩
    cases hm : p.module? e.1 with
    | none => simp [exportedHere, hm] at some
    | some m =>
      rcases ownName_or_behalf m e.2 with ⟨own, ownName⟩ | ⟨t, name, found⟩
      · exact ⟨m, own, hm, ownName, exportedHere_of_ownName hm ownName, some⟩
      · exact absurd (exportedHere_of_behalf hm found) some

theorem declares_iff : p.declares meaning e = true ↔ ∃ found, p.Hit meaning e found := by
  unfold declares
  simp only [hit_iff, exists_eq_left, Bool.not_eq_true', List.isEmpty_eq_false_iff]

theorem declares_eq_false : p.declares meaning e = false ↔ p.exportedHere meaning e = [] := by
  unfold declares
  rw [Bool.not_eq_false', List.isEmpty_iff]

theorem forwards_of_not_declares (h : p.exportedHere meaning e = []) :
    p.forwards meaning e = p.exportedElsewhere e := by
  unfold forwards
  rw [declares_eq_false.mpr h]
  rfl

theorem eq_of_forwards {l : List ExportedName} (h : p.Forwards meaning e l) :
    l = p.forwards meaning e := by
  cases h with
  | behalf hm found =>
    rw [forwards_of_not_declares (exportedHere_of_behalf hm found),
      exportedElsewhere_of_behalf hm found]
  | hit hit =>
    unfold forwards
    rw [declares_iff.mpr ⟨_, hit⟩]
    rfl
  | imported hm ownName none found =>
    rw [forwards_of_not_declares ((exportedHere_of_ownName hm ownName).trans none),
      exportedElsewhere_of_imported hm ownName found]
  | stars hm ownName none other =>
    rw [forwards_of_not_declares ((exportedHere_of_ownName hm ownName).trans none),
      exportedElsewhere_of_stars hm ownName other]
  | absent hm =>
    unfold forwards exportedElsewhere
    rw [hm]
    exact (ite_self _).symm

theorem forwards_forwards (p : Program) (meaning : Meaning) (e : ExportedName) :
    p.Forwards meaning e (p.forwards meaning e) := by
  have exists_forwards : ∃ l, p.Forwards meaning e l := by
    obtain ⟨f, n⟩ := e
    cases hm : p.module? f with
    | none => exact ⟨[], .absent hm⟩
    | some m =>
      rcases ownName_or_behalf m n with ⟨own, ownName⟩ | ⟨t, name, found⟩
      · by_cases none : m.file.topDeclarations meaning own = []
        · by_cases found : ∃ t name, m.symbols.imports.get? own = some ⟨t, .named name⟩
          · obtain ⟨t, name, found⟩ := found
            exact ⟨_, .imported hm ownName none found⟩
          · push Not at found
            exact ⟨_, .stars hm ownName none found⟩
        · exact ⟨[], .hit ⟨m, own, hm, ownName, rfl, none⟩⟩
      · exact ⟨_, .behalf hm found⟩
  obtain ⟨l, h⟩ := exists_forwards
  exact eq_of_forwards h ▸ h

/-- The files and the names that an exported name leads to are mentioned by the imports and exports
of its file, or the name stays the same. -/
theorem mem_exportedElsewhere (h : e' ∈ p.exportedElsewhere e) :
    ∃ m, p.module? e.1 = some m ∧ e'.1 ∈ m.symbols.targets ∧
      (e'.2 = e.2 ∨ e'.2 ∈ m.symbols.names) := by
  cases hm : p.module? e.1 with
  | none => simp [exportedElsewhere, hm] at h
  | some m =>
    refine ⟨m, rfl, ?_⟩
    simp only [Symbols.targets, Symbols.names, List.mem_append]
    rcases ownName_or_behalf m e.2 with ⟨own, ownName⟩ | ⟨t, name, found⟩
    · by_cases found : ∃ t name, m.symbols.imports.get? own = some ⟨t, .named name⟩
      · obtain ⟨t, name, found⟩ := found
        rw [exportedElsewhere_of_imported hm ownName found, List.mem_singleton] at h
        subst h
        have value := Table.mem_values_of_get? found
        exact ⟨.inl (.inl (List.mem_map.mpr ⟨_, value, rfl⟩)),
          .inr (.inl (List.mem_filterMap.mpr ⟨_, value, rfl⟩))⟩
      · push Not at found
        rw [exportedElsewhere_of_stars hm ownName found] at h
        obtain ⟨t, ht, rfl⟩ := List.mem_map.mp h
        refine ⟨.inr ht, ?_⟩
        cases ownName with
        | renamed entry =>
          exact .inr (.inr (List.mem_map.mpr ⟨_, Table.mem_values_of_get? entry, rfl⟩))
        | plain entry => exact .inl rfl
    · rw [exportedElsewhere_of_behalf hm found, List.mem_singleton] at h
      subst h
      have value := Table.mem_values_of_get? found
      exact ⟨.inl (.inr (List.mem_filterMap.mpr ⟨_, value, rfl⟩)),
        .inr (.inr (List.mem_map.mpr ⟨_, value, rfl⟩))⟩

/-! ### The graph of exported names -/

/-- The exported names that can be met from a first one: its file and its name, and all files and
names that imports and exports mention. -/
def meetable (p : Program) (start : ExportedName) : List ExportedName :=
  (start.1 :: p.modules.values.flatMap (·.symbols.targets)) ×ˢ
    (start.2 :: p.modules.values.flatMap (·.symbols.names))

theorem start_mem_meetable (p : Program) (start : ExportedName) : start ∈ p.meetable start :=
  List.mem_product.mpr ⟨List.mem_cons_self, List.mem_cons_self⟩

theorem exportedElsewhere_subset_meetable {start : ExportedName} (h : e ∈ p.meetable start) :
    p.exportedElsewhere e ⊆ p.meetable start := by
  rintro ⟨f, n⟩ he
  obtain ⟨m, hm, target, name⟩ := mem_exportedElsewhere he
  have value : m ∈ p.modules.values := Table.mem_values_of_get? hm
  refine List.mem_product.mpr ⟨?_, ?_⟩
  · exact List.mem_cons_of_mem _ (List.mem_flatMap.mpr ⟨m, value, target⟩)
  · rcases name with same | name
    · rw [show n = e.2 from same]
      exact (List.mem_product.mp h).2
    · exact List.mem_cons_of_mem _ (List.mem_flatMap.mpr ⟨m, value, name⟩)

theorem length_flatMap_le {α β : Type} {f : α → List β} {size : α → Nat}
    (small : ∀ a, (f a).length ≤ size a) (l : List α) (n : Nat) :
    n + (l.flatMap f).length ≤ l.foldl (fun n a => n + size a) n := by
  induction l generalizing n with
  | nil => exact Nat.le_refl n
  | cons a l ih =>
    have first := small a
    have rest := ih (n + size a)
    rw [List.flatMap_cons, List.length_append, List.foldl_cons]
    omega

theorem length_meetable_le (p : Program) (start : ExportedName) :
    (p.meetable start).length ≤ p.exportBound := by
  have targets := length_flatMap_le (fun m : Module => m.symbols.length_targets_le)
    p.modules.values 0
  have names := length_flatMap_le (fun m : Module => m.symbols.length_names_le)
    p.modules.values 0
  unfold meetable exportBound
  rw [List.length_product, List.length_cons, List.length_cons]
  exact Nat.mul_le_mul (by omega) (by omega)

/-! ### The search -/

theorem exists_visits_exportedElsewhere (p : Program) (start : ExportedName) :
    ∃ order marked, Search.Visits p.exportedElsewhere (fun _ => true) [] [start] order marked ∧
      Search.once p.exportedElsewhere p.exportBound [] [start] = order := by
  have first : [start] ⊆ p.meetable start :=
    List.cons_subset.mpr ⟨start_mem_meetable p start, List.nil_subset _⟩
  obtain ⟨order, marked, visits, inside⟩ :
      ∃ order marked, Search.Visits p.exportedElsewhere (fun _ => true) [] [start] order marked ∧
        marked ⊆ p.meetable start :=
    Search.exists_visits (fun _ h => exportedElsewhere_subset_meetable h) List.nodup_nil
      (List.nil_subset _) first
  have bound : marked.length ≤ p.exportBound :=
    Nat.le_trans (List.subperm_of_subset (visits.nodup List.nodup_nil) inside).length_le
      (length_meetable_le p start)
  refine ⟨order, marked, visits, ?_⟩
  simpa using (visits.once_eq bound).2

/-- The declarations of an exported name are those of the exported name that the search finds. -/
theorem exists_finds_exported (p : Program) (meaning : Meaning) (start : ExportedName) :
    ∃ found marked, Search.Finds (p.forwards meaning) (p.declares meaning) [] [start] found marked ∧
      p.exported meaning start = (found.map (p.exportedHere meaning)).getD [] := by
  obtain ⟨order, marked, visits, searched⟩ := exists_visits_exportedElsewhere p start
  have same (e : ExportedName) (none : p.declares meaning e = false) :
      p.exportedElsewhere e = p.forwards meaning e :=
    (forwards_of_not_declares (declares_eq_false.mp none)).symm
  have result : p.exported meaning start =
      ((order.find? (p.declares meaning)).map (p.exportedHere meaning)).getD [] := by
    unfold exported
    rw [searched, List.find?_map]
    rfl
  have finds := @Search.Visits.finds _ _ (p.declares meaning) _ _ _ _ visits
  cases first : order.find? (p.declares meaning) with
  | none =>
    rw [first] at result
    exact ⟨none, marked, (finds.1 first).congr same, result⟩
  | some e =>
    obtain ⟨marked', found⟩ := finds.2 e first
    rw [first] at result
    exact ⟨some e, marked', found.congr same, result⟩

theorem forwards_subset_meetable {start : ExportedName} (h : e ∈ p.meetable start) :
    p.forwards meaning e ⊆ p.meetable start := by
  unfold forwards
  split
  · exact List.nil_subset _
  · exact exportedElsewhere_subset_meetable h

open Relation (ReflTransGen) in
/-- The look-up of an exported name ends with the first hit in the order of the depth-first search
that enters every exported name once, and it gives the declarations of that hit. A search that takes
its marks back when it leaves a file finds the same hit. The look-up gives nothing just where no hit
can be reached. -/
theorem exported_is_first_hit (p : Program) (meaning : Meaning) (start : ExportedName) :
    (∀ e l, p.Forwards meaning e l ↔ l = p.forwards meaning e) ∧
    (∀ e, p.declares meaning e = true ↔ ∃ found, p.Hit meaning e found) ∧
    (∃ first : Option ExportedName,
      (∀ found, (∃ marked,
        Search.Finds (p.forwards meaning) (p.declares meaning) [] [start] found marked) ↔
        found = first) ∧
      (∀ found, Search.FindsAlong (p.forwards meaning) (p.declares meaning) [] [start] found ↔
        found = first) ∧
      (∃ order marked,
        Search.Visits (p.forwards meaning) (fun _ => true) [] [start] order marked ∧
        order.Nodup ∧ first = order.find? (p.declares meaning)) ∧
      (∀ e, first = some e → p.Hit meaning e (p.exported meaning start)) ∧
      (first = none → p.exported meaning start = [])) ∧
    (p.exported meaning start ≠ [] ↔ ∃ e found,
      ReflTransGen (fun c d => ∃ l, p.Forwards meaning c l ∧ d ∈ l) start e ∧
        p.Hit meaning e found) := by
  have graph (e : ExportedName) (l : List ExportedName) :
      p.Forwards meaning e l ↔ l = p.forwards meaning e := by
    constructor
    · exact eq_of_forwards
    · rintro rfl
      exact forwards_forwards p meaning e
  obtain ⟨found, marked, finds, result⟩ := exists_finds_exported p meaning start
  obtain ⟨order, visits, distinct, reached, byMarks, byWay⟩ :=
    Search.exists_order (fun _ h => forwards_subset_meetable h) (start_mem_meetable p start)
      (p.declares meaning)
  obtain rfl := (byMarks found).mp ⟨marked, finds⟩
  have hit (e : ExportedName) (h : order.find? (p.declares meaning) = some e) :
      p.Hit meaning e (p.exported meaning start) := by
    rw [result, h, Option.map_some, Option.getD_some, hit_iff]
    refine ⟨rfl, fun none => ?_⟩
    cases (List.find?_some h).symm.trans (declares_eq_false.mpr none)
  have none (h : order.find? (p.declares meaning) = none) : p.exported meaning start = [] := by
    rw [result, h]
    rfl
  obtain ⟨visited, visits⟩ := visits
  refine ⟨graph, fun _ => declares_iff, ⟨_, byMarks, byWay, ⟨order, visited, visits, distinct, rfl⟩,
    hit, none⟩, ?_⟩
  simp only [graph, exists_eq_left, ← reached]
  constructor
  · intro some
    cases h : order.find? (p.declares meaning) with
    | none => exact absurd (none h) some
    | some e => exact ⟨e, _, List.mem_of_find?_eq_some h, hit e h⟩
  · rintro ⟨e, found, he, hfound⟩
    cases h : order.find? (p.declares meaning) with
    | none => exact absurd (declares_iff.mpr ⟨found, hfound⟩) (List.find?_eq_none.mp h e he)
    | some e' =>
      obtain ⟨_, _, _, _, _, some⟩ := hit e' h
      exact some

end Program

end ParamSchema
