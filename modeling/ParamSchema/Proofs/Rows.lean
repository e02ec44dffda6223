import ParamSchema.Proofs.Shape.Members
import ParamSchema.Row

/-!
The rows of a type by reachability. A type has a row for each name of a member in a body that it can
reach, and one for each type of keys that such a body has an index type for (`Row.ListBy`). Where
rows are given they are these, and they are given unless something that can be reached cannot be
represented (`Row.expanded?_follows_reachability`).
-/

namespace ParamSchema

open Relation (ReflTransGen)
open Outcome (bind_eq_ok bind_eq_error)

namespace Resolver

variable {r : Resolver} {s : Shape} {cause : Overflow}

/-- The members of a type cannot be told, because of a type or of a body that it can reach. -/
inductive Breaks (r : Resolver) (s : Shape) (cause : Overflow) : Prop where
  | step {u : Shape} : r.Includes s u → r.Halts u cause → Breaks r s cause
  | body {b : Body} : r.HasBody s b → b.Fails r cause → Breaks r s cause

/-- The index types of a type cannot be told, because of a body that it can reach. -/
def BreaksIndex (r : Resolver) (s : Shape) (cause : Overflow) : Prop :=
  ∃ b, r.HasBody s b ∧ b.IndexFails r cause

/-- The names of the members of a type. -/
def Names (r : Resolver) (s : Shape) (name : Text) : Prop := ∃ b, r.HasBody s b ∧ b.Names r name

/-- The types of keys that a type has an index type for. -/
def Indexes (r : Resolver) (s : Shape) (key : IndexKey) : Prop :=
  ∃ b, r.HasBody s b ∧ b.Indexes r key

theorem breaks_object {body : Site} (h : r.Breaks (.object body) cause) :
    ∃ m ∈ body.named, m.property? = .error cause := by
  cases h with
  | step path halts =>
    cases includes_object_iff.mp path
    cases halts with
    | target fails =>
      rw [target?_of_not_splits rfl] at fails
      cases fails
  | body hasBody fails =>
    cases hasBody_object_iff.mp hasBody
    cases fails with
    | member mem fails => exact ⟨_, mem, fails⟩

theorem breaksIndex_object {body : Site} (h : r.BreaksIndex (.object body) cause) :
    ∃ m ∈ body.named, m.indexSignature? = .error cause ∨
      ∃ key value, m.indexSignature? = .ok (some (key, value)) ∧
        r.typeText value = .error cause := by
  obtain ⟨b, hasBody, fails⟩ := h
  cases hasBody_object_iff.mp hasBody
  cases fails with
  | signature mem fails => exact ⟨_, mem, .inl fails⟩
  | value indexValue fails =>
    cases indexValue with
    | written mem found => exact ⟨_, mem, .inr ⟨_, _, found, fails⟩⟩

section

variable {known : SourceFile → Prop} {p : Program} (lib : Library known) (hp : p.Of known)
  (hs : s.Genuine known)

include lib hp hs

theorem genuineKeys_of_hasBody {b : Body} (h : (program p).HasBody s b) :
    GenuineKeys known b := by
  obtain ⟨u, path, holds⟩ := h
  have genuine := (near_of_includes lib hp hs path).genuine_known hs hp
  cases holds with
  | object | interface => trivial
  | record key value site =>
    cases genuine with
    | record key _ _ => exact key

/-- The properties of a type have the names of its members, and all of these can be told. -/
theorem properties_eq_ok {ps : List Property} (h : (program p).properties s = .ok ps) :
    (∀ name, (∃ q ∈ ps, q.name = name) ↔ (program p).Names s name) ∧
      ∀ cause, ¬ (program p).Breaks s cause := by
  obtain ⟨bodies, hbodies, h⟩ := bind_eq_ok.mp h
  obtain ⟨pss, hpss, h⟩ := bind_eq_ok.mp h
  cases h
  obtain ⟨mem, sound⟩ := mapM_bodies_eq_ok lib hp hs hbodies
  have told {b : Body} {ps : List Property} (hb : (program p).HasBody s b)
      (found : (program p).bodyProperties b = .ok ps) :=
    bodyProperties_eq_ok lib hp (genuineKeys_of_hasBody lib hp hs hb) found
  refine ⟨fun name => ⟨?_, ?_⟩, fun cause breaks => ?_⟩
  · rintro ⟨q, hq, hname⟩
    obtain ⟨ps, hps, hq⟩ := List.mem_flatten.mp hq
    obtain ⟨b, hb, found⟩ := (Outcome.mem_of_mapM_eq_ok hpss ps).mp hps
    have hasBody := (mem b).mp hb
    exact ⟨b, hasBody, ((told hasBody found).1 name).mp ⟨q, hq, hname⟩⟩
  · rintro ⟨b, hasBody, named⟩
    obtain ⟨ps, hps, found⟩ := Outcome.exists_ok_of_mapM hpss ((mem b).mpr hasBody)
    obtain ⟨q, hq, hname⟩ := ((told hasBody found).1 name).mpr named
    exact ⟨q, List.mem_flatten.mpr ⟨ps, hps, hq⟩, hname⟩
  · cases breaks with
    | step path halts => exact sound _ _ path halts
    | @body b hasBody fails =>
      obtain ⟨ps, _, found⟩ := Outcome.exists_ok_of_mapM hpss ((mem b).mpr hasBody)
      exact (told hasBody found).2 cause fails

theorem properties_eq_error (h : (program p).properties s = .error cause) :
    (program p).Breaks s cause := by
  rcases bind_eq_error.mp h with h | ⟨bodies, hbodies, h⟩
  · obtain ⟨x, hx, failure⟩ := Outcome.exists_of_mapM_eq_error h
    rw [id] at failure
    subst failure
    obtain ⟨u, path, halts⟩ := exists_halt_of_mem_bodies lib hp hs hx
    exact .step path halts
  · rcases bind_eq_error.mp h with h | ⟨_, _, h⟩
    · obtain ⟨b, hb, failure⟩ := Outcome.exists_of_mapM_eq_error h
      exact .body (((mapM_bodies_eq_ok lib hp hs hbodies).1 b).mp hb)
        (bodyProperties_eq_error failure)
    · cases h

end

/-! ### Index types -/

section

variable {known : SourceFile → Prop} {p : Program} {key : IndexKey} {bodies : List Body}

theorem firstIndex?_eq_error
    (h : (program p).firstIndex? key (bodies.map .ok) = .error cause) :
    ∃ b ∈ bodies, (program p).bodyIndex? key b = .error cause := by
  induction bodies with
  | nil => cases h
  | cons b bodies ih =>
    rw [List.map_cons, firstIndex?] at h
    rcases bind_eq_error.mp h with h | ⟨value?, _, h⟩
    · exact ⟨b, List.mem_cons_self, h⟩
    · cases value? with
      | some value => cases h
      | none =>
        obtain ⟨b', hb', h⟩ := ih h
        exact ⟨b', List.mem_cons_of_mem _ hb', h⟩

/-- The first index type is that of a body, and there is none when no body has one. -/
theorem firstIndex?_eq_ok (lib : Library known) (hp : p.Of known)
    (genuine : ∀ b ∈ bodies, GenuineKeys known b) {value? : Option Shape}
    (h : (program p).firstIndex? key (bodies.map .ok) = .ok value?) :
    (value?.isSome ↔ ∃ b ∈ bodies, b.Indexes (program p) key) ∧
      ∀ value ∈ value?, ∃ b ∈ bodies, b.IndexValue (program p) key value := by
  induction bodies with
  | nil =>
    cases h
    exact ⟨by simp, nofun⟩
  | cons b bodies ih =>
    rw [List.map_cons, firstIndex?] at h
    obtain ⟨first?, hfirst, h⟩ := bind_eq_ok.mp h
    obtain ⟨some, values⟩ := bodyIndex?_eq_ok lib hp (genuine b List.mem_cons_self) hfirst
    cases first? with
    | some first =>
      -- The bodies behind are not asked any more.
      cases h
      refine ⟨⟨fun _ => ⟨b, List.mem_cons_self, some.mp rfl⟩, fun _ => rfl⟩, ?_⟩
      intro value hvalue
      exact ⟨b, List.mem_cons_self, values value hvalue⟩
    | none =>
      obtain ⟨later, values'⟩ := ih (fun b hb => genuine b (List.mem_cons_of_mem _ hb)) h
      refine ⟨?_, ?_⟩
      · rw [later]
        constructor
        · rintro ⟨b', hb', indexes⟩
          exact ⟨b', List.mem_cons_of_mem _ hb', indexes⟩
        · rintro ⟨b', hb', indexes⟩
          rcases List.mem_cons.mp hb' with rfl | hb'
          · cases some.mpr indexes
          · exact ⟨b', hb', indexes⟩
      · intro value hvalue
        obtain ⟨b', hb', indexValue⟩ := values' value hvalue
        exact ⟨b', List.mem_cons_of_mem _ hb', indexValue⟩

section

variable (lib : Library known) (hp : p.Of known) (hs : s.Genuine known)
  (told : ((program p).bodies s).mapM id = .ok bodies)

include lib hp hs told

theorem indexed?_eq_ok {value? : Option Shape} (h : (program p).indexed? s key = .ok value?) :
    (value?.isSome ↔ (program p).Indexes s key) ∧
      ∀ value ∈ value?, ∃ b, (program p).HasBody s b ∧ b.IndexValue (program p) key value := by
  have mem := (mapM_bodies_eq_ok lib hp hs told).1
  have genuine (b : Body) (hb : b ∈ bodies) : GenuineKeys known b :=
    genuineKeys_of_hasBody lib hp hs ((mem b).mp hb)
  rw [indexed?, Outcome.mapM_id_eq_ok.mp told] at h
  simpa only [mem, Indexes] using firstIndex?_eq_ok lib hp genuine h

theorem indexed?_eq_error (h : (program p).indexed? s key = .error cause) :
    (program p).Breaks s cause ∨ (program p).BreaksIndex s cause := by
  rw [indexed?, Outcome.mapM_id_eq_ok.mp told] at h
  obtain ⟨b, hb, failure⟩ := firstIndex?_eq_error h
  have hasBody := ((mapM_bodies_eq_ok lib hp hs told).1 b).mp hb
  rcases bodyIndex?_eq_error failure with fails | fails
  · exact .inl (.body hasBody fails)
  · exact .inr ⟨b, hasBody, fails⟩

end

end

end Resolver

/-! ### Rows -/

namespace Row

variable {r : Resolver} {s : Shape} {cause : Overflow}

/-- The name of the row for the keys of a type that are not named. -/
def indexName (key : IndexKey) : Text := txt "[key: " ++ key.text ++ txt "]"

/-- The rows that reachability gives to a type: one for each name of a member, and behind them one
for each type of keys with an index type, texts before numbers. -/
def ListBy (r : Resolver) (s : Shape) (rows : List Row) : Prop :=
  ∃ named synthetic : List Row, rows = named ++ synthetic ∧
    (named.map Row.name).Nodup ∧ (∀ name, name ∈ named.map Row.name ↔ r.Names s name) ∧
    ∃ keys : List IndexKey, keys.Sublist IndexKey.all ∧ (∀ key, key ∈ keys ↔ r.Indexes s key) ∧
      synthetic.map Row.name = keys.map indexName

theorem name_distinct (names : List Text) (ps : List Property) :
    ((distinct names ps).map Property.name).Nodup ∧
      ∀ name, name ∈ (distinct names ps).map Property.name ↔
        name ∉ names ∧ ∃ q ∈ ps, q.name = name := by
  induction ps generalizing names with
  | nil => exact ⟨List.nodup_nil, by simp [distinct]⟩
  | cons q ps ih =>
    rw [distinct]
    split
    · next seen =>
      have seen' : q.name ∈ names := List.contains_iff_mem.mp seen
      refine ⟨(ih names).1, ?_⟩
      intro name
      rw [(ih names).2]
      refine and_congr_right ?_
      intro other
      have differs : q.name ≠ name := fun same => other (same ▸ seen')
      simp [differs]
    · next new =>
      have new' : q.name ∉ names := fun mem => new (List.contains_iff_mem.mpr mem)
      obtain ⟨distinct, mem⟩ := ih (q.name :: names)
      rw [List.map_cons]
      refine ⟨List.nodup_cons.mpr ⟨?_, distinct⟩, ?_⟩
      · rw [mem]
        exact fun later => later.1 List.mem_cons_self
      · intro name
        rw [List.mem_cons, mem]
        by_cases same : name = q.name
        · subst same
          simp [new']
        · simp [same, Ne.symm same]

theorem name_ofProperties (r : Resolver) (ps : List Property) :
    (ofProperties r ps).map Row.name = (distinct [] ps).map Property.name := by
  rw [ofProperties, List.map_map]
  rfl

/-! ### Rows of index types -/

theorem ofIndex?_eq_ok {key : IndexKey} {row? : Option Row} (h : ofIndex? r s key = .ok row?) :
    ∃ value?, r.indexed? s key = .ok value? ∧
      ((value? = none ∧ row? = none) ∨
        ∃ value row, value? = some value ∧ row? = some row ∧ row.name = indexName key) := by
  obtain ⟨value?, found, h⟩ := bind_eq_ok.mp h
  refine ⟨value?, found, ?_⟩
  cases value? with
  | none =>
    cases h
    exact .inl ⟨rfl, rfl⟩
  | some value =>
    obtain ⟨text, _, h⟩ := bind_eq_ok.mp h
    cases h
    exact .inr ⟨value, _, rfl, rfl, rfl⟩

theorem ofIndex?_eq_error {key : IndexKey} (h : ofIndex? r s key = .error cause) :
    r.indexed? s key = .error cause ∨
      ∃ value, r.indexed? s key = .ok (some value) ∧ r.typeText value = .error cause := by
  rcases bind_eq_error.mp h with h | ⟨value?, found, h⟩
  · exact .inl h
  · cases value? with
    | none => cases h
    | some value =>
      rcases bind_eq_error.mp h with h | ⟨_, _, h⟩
      · exact .inr ⟨value, found, h⟩
      · cases h

/-- The rows for some types of keys are those of the types that have an index type. -/
theorem name_ofIndexes {keys : List IndexKey} {rows : List (Option Row)}
    (h : keys.mapM (ofIndex? r s) = .ok rows)
    (told : ∀ key value?, r.indexed? s key = .ok value? → (value?.isSome ↔ r.Indexes s key)) :
    ∃ keys' : List IndexKey, keys'.Sublist keys ∧
      (∀ key, key ∈ keys' ↔ key ∈ keys ∧ r.Indexes s key) ∧
      (rows.filterMap id).map Row.name = keys'.map indexName := by
  have pairs := Outcome.mapM_eq_ok.mp h
  clear h
  induction pairs with
  | nil => exact ⟨[], .slnil, by simp, rfl⟩
  | @cons key row? keys rows first _ ih =>
    obtain ⟨keys', sub, mem, names⟩ := ih
    obtain ⟨value?, found, ⟨rfl, rfl⟩ | ⟨value, row, rfl, rfl, name⟩⟩ := ofIndex?_eq_ok first
    · have lacks : ¬ r.Indexes s key := fun indexes => by
        cases (told key none found).mpr indexes
      refine ⟨keys', sub.cons key, ?_, by simpa using names⟩
      intro key'
      rw [mem, List.mem_cons]
      constructor
      · rintro ⟨hkey, indexes⟩
        exact ⟨.inr hkey, indexes⟩
      · rintro ⟨rfl | hkey, indexes⟩
        · exact absurd indexes lacks
        · exact ⟨hkey, indexes⟩
    · have has : r.Indexes s key := (told key _ found).mp rfl
      refine ⟨key :: keys', sub.cons_cons key, ?_, by simpa [name] using names⟩
      intro key'
      rw [List.mem_cons, List.mem_cons, mem]
      constructor
      · rintro (rfl | ⟨hkey, indexes⟩)
        · exact ⟨.inl rfl, has⟩
        · exact ⟨.inr hkey, indexes⟩
      · rintro ⟨rfl | hkey, indexes⟩
        · exact .inl rfl
        · exact .inr ⟨hkey, indexes⟩

/-! ### The rows of a type -/

section

variable {known : SourceFile → Prop} {p : Program} (lib : Library known) (hp : p.Of known)
  (hs : s.Genuine known)

include lib hp hs

open Resolver

/-- Where rows are given, they are those that reachability gives. -/
theorem ofShape_eq_ok {rows : List Row} (h : ofShape (program p) s = .ok rows) :
    ListBy (program p) s rows ∧ ∀ cause, ¬ (program p).Breaks s cause := by
  obtain ⟨ps, hps, h⟩ := bind_eq_ok.mp h
  obtain ⟨index, hindex, h⟩ := bind_eq_ok.mp h
  cases h
  obtain ⟨named, sound⟩ := properties_eq_ok lib hp hs hps
  obtain ⟨bodies, hbodies, _⟩ := bind_eq_ok.mp hps
  obtain ⟨distinct, mem⟩ := name_distinct [] ps
  obtain ⟨keys, sub, hkeys, names⟩ := name_ofIndexes hindex fun key value? found =>
    (indexed?_eq_ok lib hp hs hbodies found).1
  have all (key : IndexKey) : key ∈ IndexKey.all := by cases key <;> decide
  refine ⟨⟨ofProperties _ ps, _, rfl, ?_, ?_, keys, sub, ?_, names⟩, sound⟩
  · rw [name_ofProperties]
    exact distinct
  · intro name
    rw [name_ofProperties, mem, ← named]
    simp
  · intro key
    rw [hkeys]
    simp [all]

/-- Where none are given, something that can be reached cannot be told. -/
theorem ofShape_eq_error (h : ofShape (program p) s = .error cause) :
    (program p).Breaks s cause ∨ (program p).BreaksIndex s cause := by
  rcases bind_eq_error.mp h with h | ⟨ps, hps, h⟩
  · exact .inl (properties_eq_error lib hp hs h)
  · obtain ⟨bodies, hbodies, _⟩ := bind_eq_ok.mp hps
    rcases bind_eq_error.mp h with h | ⟨_, _, h⟩
    · obtain ⟨key, _, failure⟩ := Outcome.exists_of_mapM_eq_error h
      rcases ofIndex?_eq_error failure with failure | ⟨value, found, failure⟩
      · exact indexed?_eq_error lib hp hs hbodies failure
      · obtain ⟨b, hasBody, indexValue⟩ :=
          (indexed?_eq_ok lib hp hs hbodies found).2 value rfl
        exact .inr ⟨b, hasBody, .value indexValue failure⟩
    · cases h

end

theorem eq_of_nonempty {α : Type} {l l' : List α} (h : nonempty l = some l') : l = l' := by
  rw [nonempty] at h
  split at h
  · cases h
  · exact Option.some.inj h

/-- A type argument has no shape, no rows or those of its shape. -/
theorem expanded?_cases (r : Resolver) (site : Site) :
    (∃ cause, site.shape = .error cause ∧ expanded? r site = none) ∨
    (∃ s cause, site.shape = .ok s ∧ ofShape r s = .error cause ∧ expanded? r site = none) ∨
    ∃ s rows, site.shape = .ok s ∧ ofShape r s = .ok rows ∧
      expanded? r site = nonempty rows := by
  cases shape : site.shape with
  | error cause => exact .inl ⟨cause, rfl, by simp only [expanded?, shape, Except.bind]⟩
  | ok s =>
    cases found : ofShape r s with
    | error cause =>
      exact .inr (.inl ⟨s, cause, rfl, found, by simp only [expanded?, shape, Except.bind, found]⟩)
    | ok rows =>
      exact .inr (.inr ⟨s, rows, rfl, found, by simp only [expanded?, shape, Except.bind, found]⟩)

open Resolver (program) in
/-- The rows of a type argument are those that reachability gives, in any graph of aliases and
interfaces. They are given unless something that can be reached cannot be represented, and never
when a type or a member that can be reached cannot. An interface that can be reached has all
declarations of its scope. -/
theorem expanded?_follows_reachability {fs : FileSystem} {extensions : List Text}
    {requested : List Path} {p : Program} {site : Site}
    (loaded : Program.load fs extensions requested = .ok p)
    (known : site.Of (SourceFile.ReadFrom fs)) :
    (∀ s, site.shape = .ok s →
      (∀ cause, ¬ (program p).Breaks s cause ∧ ¬ (program p).BreaksIndex s cause) →
      ∃ rows, expanded? (program p) site = nonempty rows ∧ ListBy (program p) s rows) ∧
    (∀ rows, expanded? (program p) site = some rows →
      ∃ s, site.shape = .ok s ∧ ListBy (program p) s rows) ∧
    ((∃ cause, site.shape = .error cause ∨
        ∃ s, site.shape = .ok s ∧ (program p).Breaks s cause) →
      expanded? (program p) site = none) ∧
    ∀ s name declarations, site.shape = .ok s →
      (program p).Includes s (.interface name declarations) →
      Declared (SourceFile.ReadFrom fs) declarations := by
  have lib := library_readFrom fs
  have hp := Program.of_load loaded
  have genuine {s : Shape} (shape : site.shape = .ok s) : s.Genuine (SourceFile.ReadFrom fs) :=
    site.genuine_shape known shape
  have declared (s : Shape) (name : Text) (declarations : List Site) (shape : site.shape = .ok s)
      (path : (program p).Includes s (.interface name declarations)) :
      Declared (SourceFile.ReadFrom fs) declarations := by
    have near := Resolver.near_of_includes lib hp (genuine shape) path
    cases near.genuine_known (genuine shape) hp with
    | interface declared => exact declared
  rcases expanded?_cases (program p) site with ⟨cause, shape, none⟩ |
    ⟨s, cause, shape, fails, none⟩ | ⟨s, rows, shape, given, expands⟩
  · refine ⟨?_, ?_, fun _ => none, declared⟩
    · intro s shape'
      rw [shape] at shape'
      cases shape'
    · intro rows h
      rw [none] at h
      cases h
  · refine ⟨?_, ?_, fun _ => none, declared⟩
    · intro s' shape' sound
      rw [shape] at shape'
      cases shape'
      rcases ofShape_eq_error lib hp (genuine shape) fails with breaks | breaks
      · exact absurd breaks (sound cause).1
      · exact absurd breaks (sound cause).2
    · intro rows h
      rw [none] at h
      cases h
  · obtain ⟨listed, sound⟩ := ofShape_eq_ok lib hp (genuine shape) given
    refine ⟨?_, ?_, ?_, declared⟩
    · intro s' shape' _
      rw [shape] at shape'
      cases shape'
      exact ⟨rows, expands, listed⟩
    · intro rows' h
      rw [expands] at h
      exact ⟨s, shape, eq_of_nonempty h ▸ listed⟩
    · rintro ⟨cause, shape' | ⟨s', shape', breaks⟩⟩
      · rw [shape] at shape'
        cases shape'
      · rw [shape] at shape'
        cases shape'
        exact absurd breaks (sound cause)

open Resolver (program) in
/-- Interfaces that extend each other, one declared twice, and a record with keys of a type that
refers to itself. -/
theorem expanded?_cyclic_interfaces :
    let path : Path := ⟨false, [txt "a.ts"]⟩
    let fs := FileSystem.ofSource path "interface A extends B \x7b a: string \x7d
interface A \x7b c(): void \x7d interface B extends A \x7b [k: string]: any \x7d
type K = 5 | number | K; type T = Partial<A> & Record<'x' | K, A>"
    ∃ p site rows, Program.load fs [] [path] = .ok p ∧ site.Of (SourceFile.ReadFrom fs) ∧
      expanded? (program p) site = some rows ∧
      rows.map Row.name = [txt "a", txt "c", txt "x", txt "5", indexName .string,
        indexName .number] ∧
      ∃ s, site.shape = .ok s ∧ ListBy (program p) s rows := by
  intro path fs
  have run : ((Program.withAlias? fs path (txt "T")).map fun found =>
      (expanded? (program found.1) found.2).map (·.map Row.name)) =
      some (some [txt "a", txt "c", txt "x", txt "5", indexName .string, indexName .number]) := by
    decide +kernel
  obtain ⟨⟨p, site⟩, found, given⟩ := Option.map_eq_some_iff.mp run
  obtain ⟨rows, expands, names⟩ := Option.map_eq_some_iff.mp given
  obtain ⟨loaded, known⟩ := Program.withAlias?_eq_some found
  exact ⟨p, site, rows, loaded, known, expands, names,
    (expanded?_follows_reachability loaded known).2.1 rows expands⟩

open Resolver (program) in
/-- An escape that is too large keeps a type from having rows, with no number that is. -/
theorem expanded?_large_escape :
    let path : Path := ⟨false, [txt "a.ts"]⟩
    let fs := FileSystem.ofSource path "type T = \x7b a: '\\u\x7b80000000\x7d' \x7d"
    ∃ p site s, Program.load fs [] [path] = .ok p ∧ site.Of (SourceFile.ReadFrom fs) ∧
      site.shape = .ok s ∧ ¬ (program p).Breaks s .number ∧ ¬ (program p).BreaksIndex s .number ∧
      (program p).Names s (txt "a") ∧ expanded? (program p) site = none := by
  intro path fs
  have run : ((Program.withAlias? fs path (txt "T")).any fun found =>
      decide (expanded? (program found.1) found.2 = none ∧ found.2.node.kind = .objectType ∧
        found.2.named.isEmpty = false ∧ ∀ m ∈ found.2.named, m.node.kind = .propertySignature ∧
          m.file.propertyName (m.node.child? .name) = .ok (txt "a") ∧
          Option.map Property.name <$> m.property? = .error .escape ∧
          Option.isSome <$> m.indexSignature? = .ok false)) = true := by
    decide +kernel
  obtain ⟨⟨p, site⟩, found, facts⟩ := (Option.any_eq_true ..).mp run
  obtain ⟨loaded, known⟩ := Program.withAlias?_eq_some found
  obtain ⟨none, object, some, members⟩ := of_decide_eq_true facts
  refine ⟨p, site, .object site, loaded, known, Site.shape_of_objectType object, ?_, ?_, ?_, none⟩
  · intro breaks
    obtain ⟨m, hm, fails⟩ := Resolver.breaks_object breaks
    obtain ⟨_, _, property, _⟩ := members m hm
    rw [Outcome.map_eq_error.mp property] at fails
    cases fails
  · intro breaks
    obtain ⟨m, hm, failure⟩ := Resolver.breaksIndex_object breaks
    obtain ⟨_, _, _, signature⟩ := members m hm
    obtain ⟨x, hx, absent⟩ := Outcome.map_eq_ok.mp signature
    rcases failure with fails | ⟨key, value, found, _⟩
    · rw [hx] at fails
      cases fails
    · rw [hx] at found
      cases found
      cases absent
  · obtain ⟨m, hm⟩ := List.exists_mem_of_ne_nil _ (List.isEmpty_eq_false_iff.mp some)
    obtain ⟨kind, name, _⟩ := members m hm
    exact ⟨_, Resolver.hasBody_object_iff.mpr rfl, .written hm (.inl kind) name⟩

end Row

end ParamSchema
