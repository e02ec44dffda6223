import ParamSchema.Proofs.Rows

/-!
Which declaration a row is built from. The members of a type form a tree: its own members, body by
body, and below them the trees of the types that it inherits from (`Resolver.Unfolds`). A name is
looked up in the own members first and then in the types below, from left to right
(`Lineage.winner?`). The rows of a type argument are those of the declarations that win, in the
order in which their names are first met (`Row.expanded?_first_declaration_wins`).
-/

namespace ParamSchema

open Outcome (bind_eq_ok)

/-! ### Trees of members -/

/-- The members of a type: its own, one list for each body, and those of the types it inherits
from. -/
inductive Lineage where
  | node (own : List (List Property)) (parents : List Lineage)

namespace Lineage

mutual

/-- The members of a tree, the own ones in front. -/
def members : Lineage → List Property
  | .node own parents => own.flatten ++ membersOf parents

def membersOf : List Lineage → List Property
  | [] => []
  | parent :: rest => parent.members ++ membersOf rest

end

mutual

/-- The member with a name that overrides all others. An own member overrides inherited ones, and
what comes earlier overrides what comes later: in a body, among the bodies and among the types that
are inherited from. -/
def winner? (name : Text) : Lineage → Option Property
  | .node own parents =>
    (own.findSome? (·.find? (·.name == name))).or (winnerOf? name parents)

def winnerOf? (name : Text) : List Lineage → Option Property
  | [] => none
  | parent :: rest => (parent.winner? name).or (winnerOf? name rest)

end

mutual

/-- The winner is the first member with the name. -/
theorem winner?_eq_find? (name : Text) :
    (tree : Lineage) → tree.winner? name = tree.members.find? (·.name == name)
  | .node own parents => by
    rw [winner?, members, List.find?_append, List.find?_flatten, winnerOf?_eq_find?]

theorem winnerOf?_eq_find? (name : Text) :
    (trees : List Lineage) → winnerOf? name trees = (membersOf trees).find? (·.name == name)
  | [] => rfl
  | parent :: rest => by
    rw [winnerOf?, membersOf, List.find?_append, winner?_eq_find?, winnerOf?_eq_find?]

end

end Lineage

namespace Resolver

variable {r : Resolver} {s : Shape} {way : List Token}

/-- The bodies that a type has itself and the types that it inherits from, both in their order. An
interface has the bodies of all its declarations, and after them come the bases of all of these. -/
inductive Parts (r : Resolver) : Shape → List Body → List Shape → Prop where
  | object (site : Site) : Parts r (.object site) [.written site] []
  | record (key value : Shape) (site : Site) :
      Parts r (.record key value site) [.keyed key value site] []
  | interface {name : Text} {declarations : List Site} {bases : List (List Shape)} :
      declarations.mapM Site.bases = .ok bases →
      Parts r (.interface name declarations)
        ((declarations.filterMap (·.child? .body)).map .written) bases.flatten
  | intersection (members : List Shape) (site : Site) :
      Parts r (.intersection members site) [] members
  | reference {name : Text} {arguments : List Shape} {site : Site} {target? : Option Shape} :
      r.target? (.reference name arguments site) = .ok target? →
      Parts r (.reference name arguments site) [] target?.toList
  | union (members : List Shape) : Parts r (.union members) [] []
  | primitive (name : Text) : Parts r (.primitive name) [] []
  | literal (value : LiteralValue) : Parts r (.literal value) [] []
  | verbatim (text : Text) : Parts r (.verbatim text) [] []

mutual

/-- The tree of the members of a type, below the declarations on the way to it. A declaration on the
way has nothing below itself. -/
inductive Unfolds (r : Resolver) : List Token → Shape → Lineage → Prop where
  | cut {way : List Token} {s : Shape} :
      s.token?.any way.contains = true → Unfolds r way s (.node [] [])
  | node {way : List Token} {s : Shape} {bodies : List Body} {parents : List Shape}
      {own : List (List Property)} {below : List Lineage} :
      s.token?.any way.contains = false → Parts r s bodies parents →
      bodies.mapM r.bodyProperties = .ok own →
      UnfoldsAll r (s.token?.toList ++ way) parents below → Unfolds r way s (.node own below)

inductive UnfoldsAll (r : Resolver) : List Token → List Shape → List Lineage → Prop where
  | nil {way : List Token} : UnfoldsAll r way [] []
  | cons {way : List Token} {s : Shape} {rest : List Shape} {tree : Lineage}
      {trees : List Lineage} :
      Unfolds r way s tree → UnfoldsAll r way rest trees →
      UnfoldsAll r way (s :: rest) (tree :: trees)

end

/-! ### There is one tree -/

theorem Parts.unique {bodies bodies' : List Body} {parents parents' : List Shape}
    (h : Parts r s bodies parents) (h' : Parts r s bodies' parents') :
    bodies = bodies' ∧ parents = parents' := by
  cases h with
  | interface found =>
    cases h' with
    | interface found' =>
      rw [found] at found'
      cases found'
      exact ⟨rfl, rfl⟩
  | reference found =>
    cases h' with
    | reference found' =>
      rw [found] at found'
      cases found'
      exact ⟨rfl, rfl⟩
  | object | record | intersection | union | primitive | literal | verbatim =>
    cases h'
    exact ⟨rfl, rfl⟩

mutual

theorem Unfolds.unique {way : List Token} {s : Shape} {tree tree' : Lineage} :
    Unfolds r way s tree → Unfolds r way s tree' → tree = tree'
  | .cut blocked, h' => by
    cases h' with
    | cut => rfl
    | node enters =>
      rw [blocked] at enters
      cases enters
  | .node enters parts own below, h' => by
    cases h' with
    | cut blocked =>
      rw [blocked] at enters
      cases enters
    | node _ parts' own' below' =>
      obtain ⟨rfl, rfl⟩ := parts.unique parts'
      rw [own] at own'
      cases own'
      rw [below.unique below']

theorem UnfoldsAll.unique {way : List Token} {ss : List Shape} {trees trees' : List Lineage} :
    UnfoldsAll r way ss trees → UnfoldsAll r way ss trees' → trees = trees'
  | .nil, h' => by
    cases h'
    rfl
  | .cons first rest, h' => by
    cases h' with
    | cons first' rest' => rw [first.unique first', rest.unique rest']

end

/-! ### The search walks the tree -/

/-- A step that does not fail leads to the own bodies and then to the types that are inherited
from. -/
theorem exists_parts (sound : ∀ cause, .inr (.error cause) ∉ r.bodyStep s) :
    ∃ bodies parents, Parts r s bodies parents ∧
      r.bodyStep s = (bodies.map Except.ok).map .inr ++ parents.map .inl := by
  cases s with
  | interface name declarations =>
    cases found : declarations.mapM Site.bases with
    | error cause =>
      refine absurd ?_ (sound cause)
      simp [bodyStep, found]
    | ok bases =>
      refine ⟨_, _, .interface found, ?_⟩
      simp [bodyStep, found, Function.comp_def]
  | reference name arguments site =>
    cases found : r.target? (.reference name arguments site) with
    | error cause =>
      refine absurd ?_ (sound cause)
      simp [bodyStep, follow, found]
    | ok target? =>
      refine ⟨_, _, .reference found, ?_⟩
      simp [bodyStep, follow, found]
  | intersection members site => exact ⟨_, _, .intersection members site, rfl⟩
  | object site => exact ⟨_, _, .object site, rfl⟩
  | record key value site => exact ⟨_, _, .record key value site, rfl⟩
  | union members => exact ⟨_, _, .union members, rfl⟩
  | primitive name => exact ⟨_, _, .primitive name, rfl⟩
  | literal value => exact ⟨_, _, .literal value, rfl⟩
  | verbatim text => exact ⟨_, _, .verbatim text, rfl⟩

/-- The properties of what the search meets. -/
def met (r : Resolver) (body : Except Overflow Body) : Except Overflow (List Property) :=
  body >>= r.bodyProperties

theorem mapM_met_ok (bodies : List Body) :
    (bodies.map .ok).mapM r.met = bodies.mapM r.bodyProperties := by
  rw [List.mapM_map]
  rfl

/-- Trees for the types on a list, if what a search meets from each of them is a tree. -/
theorem exists_unfoldsAll {search : Shape → List (Except Overflow Body)} {ss : List Shape}
    (each : ∀ s ∈ ss, ∀ own, (search s).mapM r.met = .ok own →
      ∃ tree, Unfolds r way s tree ∧ tree.members = own.flatten)
    {own : List (List Property)} (told : (ss.flatMap search).mapM r.met = .ok own) :
    ∃ trees, UnfoldsAll r way ss trees ∧ Lineage.membersOf trees = own.flatten := by
  induction ss generalizing own with
  | nil =>
    cases told
    exact ⟨[], .nil, rfl⟩
  | cons s ss ih =>
    rw [List.flatMap_cons] at told
    obtain ⟨first, rest, hfirst, hrest, rfl⟩ := Outcome.mapM_append_eq_ok told
    obtain ⟨tree, unfolds, members⟩ := each s List.mem_cons_self first hfirst
    obtain ⟨trees, all, membersOf⟩ :=
      ih (fun u hu => each u (List.mem_cons_of_mem _ hu)) hrest
    refine ⟨tree :: trees, .cons unfolds all, ?_⟩
    rw [Lineage.membersOf, members, membersOf, List.flatten_append]

section

variable {known : SourceFile → Prop} {p : Program} (lib : Library known) (hp : p.Of known)
  (hs : s.Genuine known)

include lib hp hs

/-- What the search meets are the members of a tree. The induction is on the bound of the search:
it leaves room for all ways, so no branch of the tree is missing. -/
theorem exists_unfolds {n : Nat} {u : Shape} (hu : Shape.Near p s u) (distinct : way.Nodup)
    (tokens : way ⊆ (p.filesFrom s).flatMap SourceFile.tokens)
    (fuel : (((p.filesFrom s).flatMap SourceFile.tokens).length - way.length) *
      (s.weight + p.weight + 1) + u.size < n)
    {own : List (List Property)}
    (told : (Search.along Shape.token? (program p).bodyStep n way u).mapM (program p).met =
      .ok own) :
    ∃ tree, Unfolds (program p) way u tree ∧ tree.members = own.flatten := by
  have graph := keyed_bodyStep lib hp hs
  induction n generalizing way u own with
  | zero => exact absurd fuel (Nat.not_lt_zero _)
  | succ n ih =>
    cases enters : u.token?.any way.contains with
    | true =>
      rw [Search.along_of_blocked enters] at told
      cases told
      exact ⟨.node [] [], .cut enters, rfl⟩
    | false =>
      have sound (cause : Overflow) : .inr (.error cause) ∉ (program p).bodyStep u := by
        intro failure
        have met := Search.mem_along_of_step n enters failure
        obtain ⟨_, _, fine⟩ := Outcome.exists_ok_of_mapM told met
        cases fine
      obtain ⟨bodies, parents, parts, steps⟩ := exists_parts sound
      rw [Search.along_of_steps enters steps] at told
      obtain ⟨first, rest, hfirst, hrest, rfl⟩ := Outcome.mapM_append_eq_ok told
      rw [mapM_met_ok] at hfirst
      obtain ⟨below, all, membersOf⟩ := exists_unfoldsAll (fun v hv own' told' => by
        have step : Search.Leads (program p).bodyStep u v := by
          rw [Search.Leads, steps]
          exact List.mem_append_right _ (List.mem_map_of_mem hv)
        obtain ⟨distinct', tokens', fuel'⟩ :=
          graph.room_behind hu distinct tokens enters fuel step
        exact ih (graph.closed u v hu step) distinct' tokens' fuel' told') hrest
      refine ⟨.node first below, .node enters parts hfirst all, ?_⟩
      rw [Lineage.members, membersOf, List.flatten_append]

/-- The properties of a type are the members of its tree. -/
theorem exists_unfolds_of_properties {ps : List Property}
    (h : (program p).properties s = .ok ps) :
    ∃ tree, Unfolds (program p) [] s tree ∧ tree.members = ps := by
  obtain ⟨bodies, hbodies, h⟩ := bind_eq_ok.mp h
  obtain ⟨own, hown, h⟩ := bind_eq_ok.mp h
  cases h
  have told : (Search.along Shape.token? (program p).bodyStep ((program p).bound s) [] s).mapM
      (program p).met = .ok own := by
    rw [← bodies_program, Outcome.mapM_id_eq_ok.mp hbodies, mapM_met_ok, hown]
  exact exists_unfolds lib hp hs (Shape.near_self hs) List.nodup_nil (List.nil_subset _)
    ((keyed_bodyStep lib hp hs).room_at_start (Shape.near_self hs) (Shape.bound_filesFrom hs)) told

end

end Resolver

/-! ### Declarations -/

/-- The properties that a body declares: a member written in it, with all that the member says, or
one of the keys with the type for all of them. -/
inductive Body.Declares (r : Resolver) : Body → Property → Prop where
  | written {body : Site} {q : Property} :
      q.site ∈ body.named → q.site.property? = .ok (some q) → Declares r (.written body) q
  | keyed {key value u : Shape} {site : Site} {keys : List Shape} {q : Property} :
      r.keys key = .ok keys → u ∈ keys → Resolver.keyProperty? value site u = some q →
      Declares r (.keyed key value site) q

theorem Site.site_of_property? {member : Site} {q : Property}
    (h : member.property? = .ok (some q)) : q.site = member := by
  rw [property?] at h
  split at h
  · obtain ⟨shape, _, h⟩ := bind_eq_ok.mp h
    obtain ⟨name, _, h⟩ := bind_eq_ok.mp h
    cases h
    rfl
  · obtain ⟨name, _, h⟩ := bind_eq_ok.mp h
    cases h
    rfl
  · cases h

theorem Resolver.declares_of_bodyProperties {r : Resolver} {b : Body} {ps : List Property}
    {q : Property} (h : r.bodyProperties b = .ok ps) (hq : q ∈ ps) : b.Declares r q := by
  cases b with
  | written body =>
    obtain ⟨found, hfound, h⟩ := bind_eq_ok.mp h
    cases h
    obtain ⟨x, hx, rfl⟩ := List.mem_filterMap.mp hq
    obtain ⟨member, hmember, property⟩ := (Outcome.mem_of_mapM_eq_ok hfound _).mp hx
    cases Site.site_of_property? property
    exact .written hmember property
  | keyed key value site =>
    obtain ⟨keys, hkeys, h⟩ := bind_eq_ok.mp h
    cases h
    obtain ⟨u, hu, found⟩ := List.mem_filterMap.mp hq
    exact .keyed hkeys hu found

namespace Row

/-! ### The first of each name -/

/-- What is kept is the first property of its name. -/
theorem find?_of_mem_distinct {names : List Text} {ps : List Property} {q : Property}
    (h : q ∈ distinct names ps) :
    q.name ∉ names ∧ ps.find? (·.name == q.name) = some q := by
  induction ps generalizing names with
  | nil => cases h
  | cons first ps ih =>
    rw [distinct] at h
    split at h
    · next seen =>
      obtain ⟨new, found⟩ := ih h
      have differs : first.name ≠ q.name := fun same =>
        new (same ▸ List.contains_iff_mem.mp seen)
      exact ⟨new, by rwa [List.find?_cons_of_neg (by simpa using differs)]⟩
    · next unseen =>
      rcases List.mem_cons.mp h with rfl | h
      · exact ⟨fun mem => unseen (List.contains_iff_mem.mpr mem), by simp⟩
      · obtain ⟨new, found⟩ := ih h
        obtain ⟨differs, new⟩ := List.ne_and_not_mem_of_not_mem_cons new
        exact ⟨new, by rwa [List.find?_cons_of_neg (by simpa using Ne.symm differs)]⟩

/-- What is kept stands in the order in which the names are first met. -/
theorem pairwise_distinct (names : List Text) (ps : List Property) :
    (distinct names ps).Pairwise fun a b =>
      (ps.map Property.name).idxOf a.name < (ps.map Property.name).idxOf b.name := by
  induction ps generalizing names with
  | nil => exact .nil
  | cons first ps ih =>
    -- Behind the first property, the places of all other names are one further.
    have shift {names : List Text} (seen : first.name ∈ names) :
        (distinct names ps).Pairwise fun a b =>
          ((first :: ps).map Property.name).idxOf a.name <
            ((first :: ps).map Property.name).idxOf b.name := by
      refine List.Pairwise.imp_of_mem ?_ (ih names)
      intro a b ha hb less
      have other {q : Property} (hq : q ∈ distinct names ps) : first.name ≠ q.name := fun same =>
        (find?_of_mem_distinct hq).1 (same ▸ seen)
      rw [List.map_cons, List.idxOf_cons_ne _ (other ha), List.idxOf_cons_ne _ (other hb)]
      exact Nat.succ_lt_succ less
    rw [distinct]
    split
    · next seen => exact shift (List.contains_iff_mem.mp seen)
    · next unseen =>
      refine List.pairwise_cons.mpr ⟨?_, shift List.mem_cons_self⟩
      intro b hb
      obtain ⟨differs, _⟩ := List.ne_and_not_mem_of_not_mem_cons (find?_of_mem_distinct hb).1
      rw [List.map_cons, List.idxOf_cons_self, List.idxOf_cons_ne _ (Ne.symm differs)]
      exact Nat.succ_pos _

/-! ### Rows by precedence -/

/-- The rows that a tree of members gives: one for each name, from the member that wins, in the
order in which the names are first met. -/
structure Overriding (r : Resolver) (tree : Lineage) (rows : List Row) : Prop where
  distinct : (rows.map Row.name).Nodup
  names : ∀ name, name ∈ rows.map Row.name ↔ ∃ q ∈ tree.members, q.name = name
  ordered : (rows.map Row.name).Pairwise fun a b =>
    (tree.members.map Property.name).idxOf a < (tree.members.map Property.name).idxOf b
  wins : ∀ row ∈ rows, ∃ q, tree.winner? row.name = some q ∧ row = ofProperty r q

theorem overriding_ofProperties (r : Resolver) (tree : Lineage) :
    Overriding r tree (ofProperties r tree.members) := by
  obtain ⟨distinct, mem⟩ := name_distinct [] tree.members
  refine ⟨?_, ?_, ?_, ?_⟩
  · rw [name_ofProperties]
    exact distinct
  · intro name
    rw [name_ofProperties, mem]
    simp
  · rw [name_ofProperties, List.pairwise_map]
    exact pairwise_distinct [] tree.members
  · intro row hrow
    obtain ⟨q, hq, rfl⟩ := List.mem_map.mp hrow
    refine ⟨q, ?_, rfl⟩
    rw [Lineage.winner?_eq_find?]
    exact (find?_of_mem_distinct hq).2

open Resolver (program) in
/-- Where a type argument has rows, those of its members are the ones of the declarations that win
in the tree of its members, each with all that this declaration says. The interfaces in the tree
have all declarations of their scopes. Behind these rows there are only rows of index types. -/
theorem expanded?_first_declaration_wins {fs : FileSystem} {extensions : List Text}
    {requested : List Path} {p : Program} {site : Site} {rows : List Row}
    (loaded : Program.load fs extensions requested = .ok p)
    (known : site.Of (SourceFile.ReadFrom fs))
    (expands : expanded? (program p) site = some rows) :
    ∃ s tree named synthetic, site.shape = .ok s ∧ (program p).Unfolds [] s tree ∧
      (∀ tree', (program p).Unfolds [] s tree' → tree' = tree) ∧
      (∀ q ∈ tree.members, ∃ b, (program p).HasBody s b ∧ b.Declares (program p) q) ∧
      (∀ name declarations, (program p).Includes s (.interface name declarations) →
        Declared (SourceFile.ReadFrom fs) declarations) ∧
      rows = named ++ synthetic ∧ Overriding (program p) tree named ∧
      ∃ keys : List IndexKey, keys.Sublist IndexKey.all ∧
        synthetic.map Row.name = keys.map indexName := by
  have lib := library_readFrom fs
  have hp := Program.of_load loaded
  rcases expanded?_cases (program p) site with ⟨_, _, none⟩ | ⟨_, _, _, _, none⟩ |
    ⟨s, rows', shape, given, some⟩
  · rw [none] at expands
    cases expands
  · rw [none] at expands
    cases expands
  · rw [some] at expands
    cases eq_of_nonempty expands
    have hs := site.genuine_shape known shape
    obtain ⟨ps, hps, h⟩ := bind_eq_ok.mp given
    obtain ⟨index, hindex, h⟩ := bind_eq_ok.mp h
    cases h
    obtain ⟨tree, unfolds, rfl⟩ := Resolver.exists_unfolds_of_properties lib hp hs hps
    obtain ⟨bodies, hbodies, h⟩ := bind_eq_ok.mp hps
    obtain ⟨own, hown, h⟩ := bind_eq_ok.mp h
    obtain ⟨keys, sub, _, names⟩ := name_ofIndexes hindex fun key value? found =>
      (Resolver.indexed?_eq_ok lib hp hs hbodies found).1
    refine ⟨s, tree, _, _, shape, unfolds, fun tree' other => other.unique unfolds, ?_,
      fun name declarations path => Resolver.declared_of_includes lib hp hs path, rfl,
      overriding_ofProperties _ tree, keys, sub, names⟩
    intro q hq
    rw [← Outcome.pure_eq_ok.mp h] at hq
    obtain ⟨ps, hps, hq⟩ := List.mem_flatten.mp hq
    obtain ⟨b, hb, found⟩ := (Outcome.mem_of_mapM_eq_ok hown ps).mp hps
    exact ⟨b, ((Resolver.mapM_bodies_eq_ok lib hp hs hbodies).1 b).mp hb,
      Resolver.declares_of_bodyProperties found hq⟩

open Resolver (program) in
/-- The second declaration of an interface overrides what the first one inherits over two steps, and
the first member of an intersection what the later ones have. -/
theorem expanded?_merged_override :
    let path : Path := ⟨false, [txt "a.ts"]⟩
    let fs := FileSystem.ofSource path "interface Far \x7b x: string; y: number; z: boolean \x7d
interface Near extends Far \x7b y?: string \x7d interface A extends Near \x7b a: string \x7d
interface A \x7b x?: number; a: number \x7d
type T = A & \x7b a: boolean; w: string \x7d & Record<'w' | 'k', number>"
    ∃ p site rows, Program.load fs [] [path] = .ok p ∧ site.Of (SourceFile.ReadFrom fs) ∧
      expanded? (program p) site = some rows ∧
      rows.map (fun row => (row.name, row.type, row.optional)) =
        [(txt "a", txt "string", false), (txt "x", txt "number", true),
          (txt "y", txt "string", true), (txt "z", txt "boolean", false),
          (txt "w", txt "string", false), (txt "k", txt "number", false)] ∧
      ∃ s tree named synthetic, site.shape = .ok s ∧ (program p).Unfolds [] s tree ∧
        rows = named ++ synthetic ∧ Overriding (program p) tree named := by
  intro path fs
  have run : ((Program.withAlias? fs path (txt "T")).map fun found =>
      (expanded? (program found.1) found.2).map
        (·.map fun row => (row.name, row.type, row.optional))) =
      some (some [(txt "a", txt "string", false), (txt "x", txt "number", true),
        (txt "y", txt "string", true), (txt "z", txt "boolean", false),
        (txt "w", txt "string", false), (txt "k", txt "number", false)]) := by
    decide +kernel
  obtain ⟨⟨p, site⟩, found, given⟩ := Option.map_eq_some_iff.mp run
  obtain ⟨rows, expands, fields⟩ := Option.map_eq_some_iff.mp given
  obtain ⟨loaded, known⟩ := Program.withAlias?_eq_some found
  obtain ⟨s, tree, named, synthetic, shape, unfolds, _, _, _, split, overriding, _⟩ :=
    expanded?_first_declaration_wins loaded known expands
  exact ⟨p, site, rows, loaded, known, expands, fields, s, tree, named, synthetic, shape, unfolds,
    split, overriding⟩

end Row

end ParamSchema
